import Bcm2835.Superopt.PpaRuns

/-!
# Live allocations

Two sections in a row get the same address: the commit of the first leaves its
bit set. Runs that take no block from a region that floats already, and free
supersections only, keep the live blocks apart from each other and from the
preclaims.
-/

namespace Bcm2835.Superopt

open RegionKind

/-- What holds of the live blocks: each has the size of its kind by its kind. -/
structure Sound (s : PpaState) : Prop where
  disjoint : s.live.Pairwise fun b b' => ∀ x, Within b x → ¬Within b' x
  aligned : ∀ b ∈ s.live, b.1.scale ∣ b.2
  inside : ∀ b ∈ s.live, b.2 + b.1.scale ≤ 0x20000000
  apart : ∀ b ∈ s.live, ∀ x, Within b x → ¬Preclaimed s.preclaims x

/-- No preclaim begins on a page before the first one. -/
def FirstFirst (preclaims : List (Nat × Nat)) : Prop :=
  ∀ x, Preclaimed preclaims x → firstPage preclaims ≤ x / 4096

theorem Kept.sound {start : PhysicalPageAllocator} {s : PpaState}
    (h : Kept start (firstPage s.preclaims) s) (hfirst : FirstFirst s.preclaims) : Sound s where
  disjoint := by
    have hne : s.live.Pairwise fun b b' => b.2 ≠ b'.2 := List.pairwise_map.mp h.nodup
    refine List.Pairwise.imp_of_mem (fun {b b'} hb hb' hne x hx hx' => ?_) hne
    exact hne ((h.within hb hx).1.symm.trans (h.within hb' hx').1)
  aligned b hb := by
    obtain ⟨i, -, -, heq⟩ := h.live b hb
    have hscale : b.1.scale ∣ 2 ^ 24 := by cases b.1 <;> decide
    rw [heq]
    exact Dvd.dvd.mul_left hscale i
  inside b hb := by
    obtain ⟨i, hlt, -, heq⟩ := h.live b hb
    have hscale : b.1.scale ≤ 2 ^ 24 := by cases b.1 <;> decide
    omega
  apart b hb x hx hpre := by
    have hpage := (h.within hb hx).2
    have hfirst := hfirst x hpre
    omega

/-- Careful runs, over preclaims that `ppa_init` reads within and that begin with
the first of them, have sound live blocks, and no careful call faults. -/
theorem careful_runs_sound (preclaims : List (Nat × Nat)) (hread : ReadsInside preclaims)
    (hfirst : FirstFirst preclaims) :
    (∃ s, (ppaSystem preclaims).init s) ∧
    ∀ s, ((ppaSystem preclaims).restrict Careful).Reachable s →
      Sound s ∧ ∀ c : PpaCall, c.Valid s → Careful s c → ∃ s', ppaNext s c = .ok s' := by
  obtain ⟨start, hstart, hinit⟩ := ppa_init_spec hread
  refine ⟨⟨_, start, hstart, rfl⟩, fun s hs => ?_⟩
  obtain ⟨hkept, hpre⟩ := kept_of_careful hstart hinit s hs
  constructor
  · rw [← hpre] at hkept hfirst
    exact hkept.sound hfirst
  · intro c hvalid hcare
    obtain ⟨s', hs', -⟩ := hkept.next hinit hvalid hcare
    exact ⟨s', hs'⟩

/-- Everything from 496 MB on preclaimed. -/
theorem careful_runs_sound_high :
    (∃ s, (ppaSystem [(0x1f000000, 0x20000001)]).init s) ∧
    ∀ s, ((ppaSystem [(0x1f000000, 0x20000001)]).restrict Careful).Reachable s →
      Sound s ∧ ∀ c : PpaCall, c.Valid s → Careful s c → ∃ s', ppaNext s c = .ok s' := by
  apply careful_runs_sound [(0x1f000000, 0x20000001)]
  · exact .inr ⟨_, List.mem_singleton_self _, by decide⟩
  · rintro x ⟨r, hr, hlow, -⟩
    obtain rfl := List.mem_singleton.mp hr
    exact Nat.div_le_div_right hlow

/-- Two sections in a row are the same megabyte. -/
theorem sections_not_disjoint : ∃ s, (ppaSystem []).Reachable s ∧
    s.live = [(RK_Section, 0x1f000000), (RK_Section, 0x1f000000)] ∧ ¬Sound s := by
  have hrun : (TSys.exec ppaStep .start [.alloc RK_Section, .alloc RK_Section]).map
      PpaState.live = some [(RK_Section, 0x1f000000), (RK_Section, 0x1f000000)] := by
    decide +kernel
  obtain ⟨s, hs, hlive⟩ := Option.map_eq_some_iff.mp hrun
  refine ⟨s, reachable_of_exec hs, hlive, fun hsound => ?_⟩
  have hdisjoint := hsound.disjoint
  rw [hlive] at hdisjoint
  have hpair := List.rel_of_pairwise_cons hdisjoint (List.mem_singleton_self _)
  exact hpair 0x1f000000 ⟨by decide, by decide⟩ ⟨by decide, by decide⟩

end Bcm2835.Superopt
