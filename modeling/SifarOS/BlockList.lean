import SifarOS.ByteMemory
import Mathlib.Data.List.Basic

/-! # Blocks with headers

A heap whose blocks lie one after the other, each with a header of `n` bytes in front of its
payload. The members of a header are 32-bit words, and one of them is the address of the next
block. What else a header holds is a parameter. -/
namespace SifarOS.BlockList
open ByteMemory

/-! ## Headers -/

/-- Where the members of a header of `n` bytes are. -/
structure Header (F : Type) (n : ℕ) where
  offset : F → ℕ
  offset_le : ∀ f, offset f + 4 ≤ n
  apart : ∀ f g, g ≠ f → offset g + 4 ≤ offset f ∨ offset f + 4 ≤ offset g

variable {F : Type} {n : ℕ}

/-- A member of the block at `b`. -/
def Header.get (H : Header F n) (m : Memory) (b : ℕ) (f : F) : ℕ := load32 m (b + H.offset f)

def Header.set (H : Header F n) (m : Memory) (b : ℕ) (f : F) (v : ℕ) : Memory := store32 m (b + H.offset f) v

namespace Header
variable (H : Header F n) {m m' : Memory} {a b c k : ℕ} {f g : F}

theorem get_lt (m : Memory) (b : ℕ) (f : F) : H.get m b f < 4294967296 := load32_lt m _

theorem get_set_self (m : Memory) (b : ℕ) (f : F) (v : ℕ) : H.get (H.set m b f v) b f = v % 4294967296 :=
  load32_store32 m _ v

theorem get_set_field (m : Memory) (b v : ℕ) (h : g ≠ f) : H.get (H.set m b f v) b g = H.get m b g := by
  have hfg := H.apart f g h
  apply load32_store32_of_disjoint m v
  omega

theorem get_set [DecidableEq F] (m : Memory) (b : ℕ) (f g : F) (v : ℕ) :
    H.get (H.set m b f v) b g = if g = f then v % 4294967296 else H.get m b g := by
  split
  · next h =>
    subst h
    exact H.get_set_self m b g v
  · next h => exact H.get_set_field m b v h

theorem set_sameOn (m : Memory) (f : F) (v : ℕ) (h : a + k ≤ b ∨ b + n ≤ a) : SameOn m (H.set m b f v) a k := by
  have hf := H.offset_le f
  apply store32_sameOn m v
  omega

theorem get_congr (h : SameOn m m' b n) (f : F) : H.get m' b f = H.get m b f := by
  have hf := H.offset_le f
  exact load32_congr (h.mono (by omega) (by omega))

theorem get_set_block (m : Memory) (f g : F) (v : ℕ) (h : c + n ≤ b ∨ b + n ≤ c) :
    H.get (H.set m b f v) c g = H.get m c g :=
  H.get_congr (H.set_sameOn m f v h) g

end Header

/-! ## Blocks -/

/-- A block behind a header of `n` bytes. -/
structure Block (n : ℕ) where
  addr : ℕ
  size : ℕ
  free : Bool
  deriving DecidableEq, Repr

/-- The first address after the payload. -/
def Block.stop (b : Block n) : ℕ := b.addr + n + b.size

/-- The pointer the owner of the block has. -/
def Block.payload (b : Block n) : ℕ := b.addr + n

theorem Block.payload_inj {b c : Block n} (h : b.payload = c.payload) : b.addr = c.addr := Nat.add_right_cancel h

/-- The blocks lie in `[lo, hi)`, in order and without overlap. -/
def Placed : ℕ → List (Block n) → ℕ → Prop
  | lo, [], hi => lo ≤ hi
  | lo, b :: bs, hi => lo ≤ b.addr ∧ Placed b.stop bs hi

/-- The blocks fill `[lo, hi)`, in order. -/
def Tiled : ℕ → List (Block n) → ℕ → Prop
  | lo, [], hi => lo = hi
  | lo, b :: bs, hi => b.addr = lo ∧ Tiled b.stop bs hi

/-- The blocks in use, except the one at `own`, are still there, with their bytes. -/
def Keeps (m m' : Memory) (bs bs' : List (Block n)) (own : ℕ) : Prop :=
  ∀ c ∈ bs, c.free = false → c.addr ≠ own → c ∈ bs' ∧ SameOn m m' c.payload c.size

section Places
variable {b c : Block n} {pre post bs bs' : List (Block n)} {lo hi lo' hi' mid own : ℕ} {m m' m'' : Memory}

theorem placed_focus : Placed lo (pre ++ b :: post) hi ↔ Placed lo pre b.addr ∧ Placed b.stop post hi := by
  induction pre generalizing lo with
  | nil => rfl
  | cons c pre ih =>
    simp only [List.cons_append, Placed, ih]
    tauto

theorem Placed.length_le (h : Placed lo bs hi) : lo + n * bs.length ≤ hi := by
  induction bs generalizing lo with
  | nil => exact h
  | cons c bs ih =>
    have h₁ := ih h.2
    have h₂ := h.1
    rw [Block.stop] at h₁
    rw [List.length_cons, Nat.mul_succ]
    omega

theorem Placed.le (h : Placed lo bs hi) : lo ≤ hi := Nat.le_trans (Nat.le_add_right _ _) h.length_le

theorem Placed.mem (h : Placed lo bs hi) (hb : b ∈ bs) : lo ≤ b.addr ∧ b.stop ≤ hi := by
  obtain ⟨pre, post, rfl⟩ := List.append_of_mem hb
  obtain ⟨h₁, h₂⟩ := placed_focus.mp h
  exact ⟨h₁.le, h₂.le⟩

theorem Placed.mono (h : Placed lo bs hi) (hlo : lo' ≤ lo) (hhi : hi ≤ hi') : Placed lo' bs hi' := by
  induction bs generalizing lo lo' with
  | nil => exact Nat.le_trans hlo (Nat.le_trans h hhi)
  | cons c bs ih => exact ⟨Nat.le_trans hlo h.1, ih h.2 (Nat.le_refl _)⟩

theorem Placed.pairwise (h : Placed lo bs hi) : bs.Pairwise (fun b c => b.stop ≤ c.addr) := by
  induction bs generalizing lo with
  | nil => exact .nil
  | cons b bs ih => exact .cons (fun c hc => (h.2.mem hc).1) (ih h.2)

/-- Of two blocks one lies before the other. -/
theorem Placed.ordered (h : Placed lo bs hi) (hb : b ∈ bs) (hc : c ∈ bs) (hne : c ≠ b) :
    c.stop ≤ b.addr ∨ b.stop ≤ c.addr := by
  obtain ⟨pre, post, rfl⟩ := List.append_of_mem hb
  obtain ⟨h₁, h₂⟩ := placed_focus.mp h
  rcases List.mem_append.mp hc with hc | hc
  · exact .inl (h₁.mem hc).2
  · rcases List.mem_cons.mp hc with rfl | hc
    · exact absurd rfl hne
    · exact .inr (h₂.mem hc).1

/-- Two blocks of the list have two addresses. -/
theorem Placed.inj (hn : 0 < n) (h : Placed lo bs hi) (hb : b ∈ bs) (hc : c ∈ bs) (he : b.addr = c.addr) : b = c := by
  by_contra hne
  have := h.ordered hb hc (Ne.symm hne)
  unfold Block.stop at this
  omega

/-- No payload overlaps a header. -/
theorem Placed.apart (h : Placed lo bs hi) (hb : b ∈ bs) (hc : c ∈ bs) :
    c.payload + c.size ≤ b.addr ∨ b.addr + n ≤ c.payload := by
  by_cases he : c = b
  · subst he
    exact .inr (Nat.le_refl _)
  · have := h.ordered hb hc he
    unfold Block.stop at this
    unfold Block.payload
    omega

theorem Placed.header_sameOn (h : Placed lo bs hi) (hc : c ∈ bs) (hs : SameOn m m' lo (hi - lo)) :
    SameOn m m' c.addr n := by
  have hmem := h.mem hc
  unfold Block.stop at hmem
  exact hs.mono hmem.1 (by omega)

theorem tiled_append (h : Tiled lo pre mid) : Tiled lo (pre ++ bs) hi ↔ Tiled mid bs hi := by
  induction pre generalizing lo with
  | nil =>
    cases h
    rfl
  | cons c pre ih =>
    obtain ⟨haddr, h⟩ := h
    simp only [List.cons_append, Tiled, haddr, true_and]
    exact ih h

theorem tiled_focus : Tiled lo (pre ++ b :: post) hi ↔ Tiled lo pre b.addr ∧ Tiled b.stop post hi := by
  induction pre generalizing lo with
  | nil => simp [Tiled, eq_comm]
  | cons c pre ih =>
    simp only [List.cons_append, Tiled, ih]
    tauto

theorem Tiled.placed (h : Tiled lo bs hi) : Placed lo bs hi := by
  induction bs generalizing lo with
  | nil => exact Nat.le_of_eq h
  | cons c bs ih => exact ⟨Nat.le_of_eq h.1.symm, ih h.2⟩

theorem Keeps.refl (m : Memory) (bs : List (Block n)) (own : ℕ) : Keeps m m bs bs own :=
  fun c hc _ _ => ⟨hc, SameOn.refl m c.payload c.size⟩

theorem Keeps.trans {bs'' : List (Block n)} (h : Keeps m m' bs bs' own) (h' : Keeps m' m'' bs' bs'' own) :
    Keeps m m'' bs bs'' own := by
  intro c hc hused hne
  obtain ⟨hc₁, hs₁⟩ := h c hc hused hne
  obtain ⟨hc₂, hs₂⟩ := h' c hc₁ hused hne
  exact ⟨hc₂, hs₁.trans hs₂⟩

theorem Keeps.weaken {own' : ℕ} (h : Keeps m m' bs bs' own)
    (ho : ∀ c ∈ bs, c.addr = own → c.addr = own' ∨ c.free = true) : Keeps m m' bs bs' own' := by
  intro c hc hused hne
  refine h c hc hused fun he => ?_
  rcases ho c hc he with hown | hfree
  · exact hne hown
  · rw [hfree] at hused
    cases hused

end Places

/-! ## Links -/

def headAddr : List (Block n) → ℕ → ℕ
  | [], after => after
  | b :: _, _ => b.addr

def lastAddr : ℕ → List (Block n) → ℕ
  | before, [] => before
  | _, b :: bs => lastAddr b.addr bs

/-- What the header of a block says, given the addresses of its neighbours, depends on the bytes of the header only. -/
class HeaderOnly (P : Memory → Block n → ℕ → ℕ → Prop) : Prop where
  frame : ∀ {m m' : Memory} {b : Block n} {p q : ℕ}, P m b p q → SameOn m m' b.addr n → P m' b p q

/-- The headers of `bs` are in place, with `before` ahead of the first block and `after` behind the last: `P m b p q`
says so of `b` between the neighbours `p` and `q`. -/
def Linked (P : Memory → Block n → ℕ → ℕ → Prop) (m : Memory) : ℕ → List (Block n) → ℕ → Prop
  | _, [], _ => True
  | before, b :: bs, after => P m b before (headAddr bs after) ∧ Linked P m b.addr bs after

/-- The blocks a loop over `next` visits. -/
def walk (next : ℕ → ℕ) : ℕ → ℕ → List ℕ
  | 0, _ => []
  | fuel + 1, b => if b = 0 then [] else b :: walk next fuel (next b)

section Linked
variable {P : Memory → Block n → ℕ → ℕ → Prop} {m m' : Memory} {b : Block n} {pre post bs : List (Block n)}
  {lo hi before after : ℕ}

@[simp] theorem headAddr_cons : headAddr (b :: bs) after = b.addr := rfl

theorem headAddr_append : headAddr (pre ++ b :: post) after = headAddr pre b.addr := by
  cases pre <;> rfl

theorem lastAddr_concat : lastAddr before (pre ++ [b]) = b.addr := by
  induction pre generalizing before with
  | nil => rfl
  | cons c pre ih => exact ih

theorem linked_focus : Linked P m before (pre ++ b :: post) after ↔
    Linked P m before pre b.addr ∧ P m b (lastAddr before pre) (headAddr post after) ∧
      Linked P m b.addr post after := by
  induction pre generalizing before with
  | nil => simp [Linked, lastAddr]
  | cons c pre ih =>
    simp only [List.cons_append, Linked, lastAddr, headAddr_append, ih]
    tauto

/-- The links survive a write that leaves the headers alone. -/
theorem Linked.congr [HeaderOnly P] (h : Linked P m before bs after) (hs : ∀ c ∈ bs, SameOn m m' c.addr n) :
    Linked P m' before bs after := by
  induction bs generalizing before with
  | nil => trivial
  | cons c bs ih =>
    exact ⟨HeaderOnly.frame h.1 (hs c (List.mem_cons_self ..)), ih h.2 (fun d hd => hs d (List.mem_cons_of_mem _ hd))⟩

theorem Linked.frame [HeaderOnly P] (h : Linked P m before bs after) (hp : Placed lo bs hi)
    (hs : SameOn m m' lo (hi - lo)) : Linked P m' before bs after :=
  h.congr fun _ hc => hp.header_sameOn hc hs

/-- A loop over `next` sees the blocks of the list. -/
theorem Linked.walk {next : ℕ → ℕ} (h : Linked P m before bs 0) (hnext : ∀ c p q, P m c p q → next c.addr = q)
    (hp : Placed lo bs hi) (hlo : 0 < lo) {fuel : ℕ} (hf : bs.length ≤ fuel) :
    walk next fuel (headAddr bs 0) = bs.map Block.addr := by
  induction bs generalizing before lo fuel with
  | nil => cases fuel <;> rfl
  | cons c bs ih =>
    cases fuel with
    | zero => simp at hf
    | succ fuel =>
      have hc : c.addr ≠ 0 := by
        have := hp.1
        omega
      have hstop : 0 < c.stop := by
        unfold Block.stop
        omega
      have ih' := ih h.2 hp.2 hstop (Nat.le_of_succ_le_succ hf)
      rw [headAddr_cons, BlockList.walk, if_neg hc, hnext _ _ _ h.1, ih', List.map_cons]

end Linked

end SifarOS.BlockList
