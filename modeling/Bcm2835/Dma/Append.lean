import Bcm2835.Dma.Runs

/-!
# Chains back to back

What one operation emits behind another is one chain: a memory holds it if and only if
it holds both parts.
-/

namespace Bcm2835.Dma

open Mem EmitCtx

/-- `D` behind `C`. -/
def Chain.append (C D : Chain) (h : D.z = C.z + 32 * C.n) : Chain where
  z := C.z
  n := C.n + D.n
  f k := if k < C.n then C.f k else D.f (k - C.n)
  patched k j := if k < C.n then C.patched k j else D.patched (k - C.n) j
  exit := D.exit
  pos := C.pos
  fits := by
    have hfits := D.fits
    omega

variable {C D : Chain} {m m' : Memory} {h : D.z = C.z + 32 * C.n}

theorem Chain.append_left {k : Nat} (hk : k < C.n) : (C.append D h).f k = C.f k := if_pos hk

theorem Chain.append_right (k : Nat) : (C.append D h).f (C.n + k) = D.f k := by
  show (if C.n + k < C.n then C.f (C.n + k) else D.f (C.n + k - C.n)) = D.f k
  rw [if_neg (by omega), Nat.add_sub_cancel_left]

theorem Chain.append_next_left (hexit : ∀ k, k + 1 = C.n → (C.f k).next_cb = C.exit) (hn : 0 < D.n)
    {k : Nat} (hk : k < C.n) : (C.append D h).next k = C.next k := by
  have hlast : ¬ k + 1 = C.n + D.n := by omega
  show (if k + 1 = C.n + D.n then D.exit else ((C.append D h).f k).next_cb) = _
  rw [if_neg hlast, Chain.append_left hk, Chain.next]
  split
  · next heq => exact hexit k heq
  · rfl

theorem Chain.append_next_right (k : Nat) : (C.append D h).next (C.n + k) = D.next k := by
  show (if C.n + k + 1 = C.n + D.n then D.exit else ((C.append D h).f (C.n + k)).next_cb) =
    if k + 1 = D.n then D.exit else (D.f k).next_cb
  rw [Chain.append_right]
  exact if_congr (by omega) rfl rfl

/-- Both parts make the whole. -/
theorem Chain.In.append (hC : C.In m) (hD : D.In m)
    (hexit : ∀ k, k + 1 = C.n → (C.f k).next_cb = C.exit) (hn : 0 < D.n) : (C.append D h).In m := by
  -- a block is one of the first part or one of the second
  have hcases : ∀ k < (C.append D h).n, k < C.n ∨ ∃ l < D.n, k = C.n + l := by
    intro k hk
    have hk' : k < C.n + D.n := hk
    rcases Nat.lt_or_ge k C.n with hlt | hge
    · exact .inl hlt
    · exact .inr ⟨k - C.n, by omega, by omega⟩
  have hat : ∀ l, C.z + 32 * (C.n + l) = D.z + 32 * l := fun l => by omega
  constructor
  · intro k hk hlen
    rcases hcases k hk with hlt | ⟨l, hl, rfl⟩
    · rw [Chain.append_left hlt] at hlen ⊢
      exact hC.ti k hlt hlen
    · rw [Chain.append_right] at hlen ⊢
      show word m (C.z + 32 * (C.n + l)) = _
      rw [hat]
      exact hD.ti l hl hlen
  · intro k hk j hj hnot
    rcases hcases k hk with hlt | ⟨l, hl, rfl⟩
    · have hnot' : ¬ C.patched k j := fun hp => hnot (by
        show if k < C.n then C.patched k j else _
        rwa [if_pos hlt])
      rw [Chain.append_left hlt]
      exact hC.src k hlt j hj hnot'
    · have hnot' : ¬ D.patched l j := fun hp => hnot (by
        show if C.n + l < C.n then _ else D.patched (C.n + l - C.n) j
        rwa [if_neg (by omega), Nat.add_sub_cancel_left])
      have hsrc : (C.append D h).src (C.n + l) j = D.src l j := by
        show C.z + 32 * (C.n + l) + 4 + j = D.z + 32 * l + 4 + j
        rw [hat]
      rw [Chain.append_right, hsrc]
      exact hD.src l hl j hj hnot'
  · intro k hk
    rcases hcases k hk with hlt | ⟨l, hl, rfl⟩
    · rw [Chain.append_left hlt]
      exact hC.dst k hlt
    · rw [Chain.append_right]
      show word m (C.z + 32 * (C.n + l) + 8) = _
      rw [hat]
      exact hD.dst l hl
  · intro k hk
    rcases hcases k hk with hlt | ⟨l, hl, rfl⟩
    · rw [Chain.append_left hlt]
      exact hC.len k hlt
    · rw [Chain.append_right]
      show word m (C.z + 32 * (C.n + l) + 12) = _
      rw [hat]
      exact hD.len l hl
  · intro k hk
    rcases hcases k hk with hlt | ⟨l, hl, rfl⟩
    · rw [Chain.append_left hlt]
      exact hC.stride k hlt
    · rw [Chain.append_right]
      show word m (C.z + 32 * (C.n + l) + 16) = _
      rw [hat]
      exact hD.stride l hl
  · intro k hk
    rcases hcases k hk with hlt | ⟨l, hl, rfl⟩
    · rw [Chain.append_next_left hexit hn hlt]
      exact hC.next k hlt
    · rw [Chain.append_next_right]
      show word m (C.z + 32 * (C.n + l) + 20) = _
      rw [hat]
      exact hD.next l hl

theorem Chain.In.left (hin : (C.append D h).In m)
    (hexit : ∀ k, k + 1 = C.n → (C.f k).next_cb = C.exit) (hn : 0 < D.n) : C.In m := by
  have hlt : ∀ {k}, k < C.n → k < (C.append D h).n := fun hk => Nat.lt_add_right _ hk
  constructor
  · intro k hk hlen
    have hti := hin.ti k (hlt hk)
    rw [Chain.append_left hk] at hti
    exact hti hlen
  · intro k hk j hj hnot
    have hsrc := hin.src k (hlt hk) j hj fun hp => hnot (by
      have hp' : if k < C.n then C.patched k j else D.patched (k - C.n) j := hp
      rwa [if_pos hk] at hp')
    rw [Chain.append_left hk] at hsrc
    exact hsrc
  · intro k hk
    have hdst := hin.dst k (hlt hk)
    rw [Chain.append_left hk] at hdst
    exact hdst
  · intro k hk
    have hlen := hin.len k (hlt hk)
    rw [Chain.append_left hk] at hlen
    exact hlen
  · intro k hk
    have hstride := hin.stride k (hlt hk)
    rw [Chain.append_left hk] at hstride
    exact hstride
  · intro k hk
    have hnext := hin.next k (hlt hk)
    rw [Chain.append_next_left hexit hn hk] at hnext
    exact hnext

theorem Chain.In.right (hin : (C.append D h).In m) : D.In m := by
  have hlt : ∀ {k}, k < D.n → C.n + k < (C.append D h).n := fun hk => Nat.add_lt_add_left hk _
  have hat : ∀ l, (C.append D h).z + 32 * (C.n + l) = D.z + 32 * l := fun l => by
    show C.z + 32 * (C.n + l) = _
    omega
  constructor
  · intro k hk hlen
    have hti := hin.ti (C.n + k) (hlt hk)
    rw [Chain.append_right, hat] at hti
    exact hti hlen
  · intro k hk j hj hnot
    have hsrc := hin.src (C.n + k) (hlt hk) j hj fun hp => hnot (by
      have hp' : if C.n + k < C.n then C.patched (C.n + k) j else D.patched (C.n + k - C.n) j := hp
      rwa [if_neg (by omega), Nat.add_sub_cancel_left] at hp')
    rw [Chain.append_right, Chain.src, srcField, hat] at hsrc
    exact hsrc
  · intro k hk
    have hdst := hin.dst (C.n + k) (hlt hk)
    rw [Chain.append_right, hat] at hdst
    exact hdst
  · intro k hk
    have hlen := hin.len (C.n + k) (hlt hk)
    rw [Chain.append_right, hat] at hlen
    exact hlen
  · intro k hk
    have hstride := hin.stride (C.n + k) (hlt hk)
    rw [Chain.append_right, hat] at hstride
    exact hstride
  · intro k hk
    have hnext := hin.next (C.n + k) (hlt hk)
    rw [Chain.append_next_right, hat] at hnext
    exact hnext

/-! ## Contexts filled twice -/

theorem EmitCtx.fill_congr (ctx : EmitCtx) {f g : Nat → Cblk} {n : Nat} (h : ∀ k < n, f k = g k) :
    ctx.fill f n = ctx.fill g n := by
  induction n with
  | zero => rfl
  | succ n ih =>
      rw [EmitCtx.fill, EmitCtx.fill, ih fun k hk => h k (Nat.lt_succ_of_lt hk), h n (Nat.lt_succ_self n)]

theorem EmitCtx.fill_add (ctx : EmitCtx) (f : Nat → Cblk) (n k : Nat) :
    ctx.fill f (n + k) = (ctx.fill f n).fill (fun i => f (n + i)) k := by
  induction k with
  | zero => rfl
  | succ k ih =>
      show (ctx.fill f (n + k)).push (f (n + k)) = _
      rw [ih, EmitCtx.fill]

/-- A context that takes the blocks of `C` and then those of `D`. -/
theorem EmitCtx.fill_append (ctx : EmitCtx) :
    ctx.fill (C.append D h).f (C.append D h).n = (ctx.fill C.f C.n).fill D.f D.n := by
  show ctx.fill (C.append D h).f (C.n + D.n) = _
  rw [EmitCtx.fill_add, EmitCtx.fill_congr ctx (g := C.f) fun k hk => Chain.append_left hk]
  exact EmitCtx.fill_congr _ fun k _ => Chain.append_right k

theorem EmitCtx.label_fill (ctx : EmitCtx) (f : Nat → Cblk) (n : Nat) :
    (ctx.fill f n).label = ctx.label + 32 * n := by
  rw [EmitCtx.label, EmitCtx.fill_p, EmitCtx.label]
  omega

/-! ## Runs -/

/-- Writing the source addresses of one chain, and nothing else of the code, leaves a
chain next to it. -/
theorem Chain.In.of_beside (hD : D.In m) (hbeside : D.z + 32 * D.n ≤ C.z ∨ C.z + 32 * C.n ≤ D.z)
    (hkeep : ∀ a, D.z ≤ a → a < D.z + 32 * D.n → (∀ k < C.n, ∀ j < 4, a ≠ srcField C.z k j) → m' a = m a) :
    D.In m' := by
  refine hD.congr fun a ⟨hlo, hhi, _⟩ => hkeep a hlo hhi fun k hk j hj => ?_
  rw [srcField]
  omega

end Bcm2835.Dma
