import SifarOS.BufferMapping

/-! # Buffers that go and come

A buffer is released, or another one takes its place. A new buffer is found among the free frames while the old one
keeps its own, so an exchange that fails can always be taken back. -/
namespace SifarOS.WindowBuffers
open Graphics Paging Paging.Machine WindowServer

variable {m m' : Machine} {directory : ℕ → ℕ} {i : WindowSlot} {f f' g k n n' o p : ℕ}

theorem slot_page_lt (i : WindowSlot) (hk : k < 1024) : firstPage i + k < pageCount := by
  have hi := i.isLt
  unfold firstPage pageCount
  omega

/-- A page outside the 4 MiB of a window. -/
def Outside (i : WindowSlot) (p : ℕ) : Prop := p < firstPage i ∨ firstPage i + 1024 ≤ p

theorem outside_of_ne {j : WindowSlot} (hne : j ≠ i) (hk : k < 1024) : Outside i (firstPage j + k) := by
  have hval : j.val ≠ i.val := fun he => hne (Fin.ext he)
  unfold Outside firstPage
  omega

theorem ne_of_outside (hp : Outside i p) (hk : k < 1024) : firstPage i + k ≠ p := by
  unfold Outside at hp
  omega

theorem filled_at (old : ℕ → ℕ) (i : WindowSlot) (f : ℕ) (hk : k < n) :
    filled old i f 0 n (firstPage i + k) = mapEntry (f + k) userFlags := by
  unfold filled
  rw [if_pos (by omega), Nat.add_sub_cancel_left]

theorem filled_rest (old : ℕ → ℕ) (i : WindowSlot) (f : ℕ) (hk : n ≤ k) :
    filled old i f 0 n (firstPage i + k) = old (firstPage i + k) := by
  unfold filled
  rw [if_neg (by omega)]

theorem filled_outside (old : ℕ → ℕ) (f : ℕ) (hn : n ≤ 1024) (hp : Outside i p) : filled old i f 0 n p = old p := by
  unfold Outside at hp
  unfold filled
  rw [if_neg (by omega)]

theorem emptied_at (old : ℕ → ℕ) (i : WindowSlot) (hk : k < n) : emptied old i 0 n (firstPage i + k) = 0 := by
  unfold emptied
  rw [if_pos (by omega)]

theorem emptied_rest (old : ℕ → ℕ) (i : WindowSlot) (hk : n ≤ k) : emptied old i 0 n (firstPage i + k) = old (firstPage i + k) := by
  unfold emptied
  rw [if_neg (by omega)]

theorem emptied_outside (old : ℕ → ℕ) (hn : n ≤ 1024) (hp : Outside i p) : emptied old i 0 n p = old p := by
  unfold Outside at hp
  unfold emptied
  rw [if_neg (by omega)]

/-- A page is in the slot, or outside it. -/
theorem slot_or_outside (i : WindowSlot) (p : ℕ) : (∃ k < 1024, p = firstPage i + k) ∨ Outside i p := by
  by_cases hin : firstPage i ≤ p ∧ p < firstPage i + 1024
  · exact Or.inl ⟨p - firstPage i, by omega, by omega⟩
  · refine Or.inr ?_
    unfold Outside
    omega

/-! ## A buffer in place -/

/-- The pages of the slot are mapped to the `n` frames behind `f` in the space of `o`, and no more of them. -/
structure Held (directory : ℕ → ℕ) (m : Machine) (o : ℕ) (i : WindowSlot) (f n : ℕ) : Prop where
  live : directory o ≠ 0
  some : 0 < n
  fits : n ≤ 1024
  run : f ≠ 0 ∧ f + n ≤ m.totalFrames
  mapped : ∀ k < n, m.pte (directory o) (firstPage i + k) = mapEntry (f + k) userFlags
  rest : ∀ k, n ≤ k → k < 1024 → present (m.pte (directory o) (firstPage i + k)) = false
  used : ∀ g, InRun f n g → m.bitmap g = true
  loose : ∀ g, InRun f n g → m.Loose directory g

namespace Held

theorem present_pte (h : Held directory m o i f n) (hk : k < n) : present (m.pte (directory o) (firstPage i + k)) = true := by
  rw [h.mapped k hk]
  exact mapEntry_present _ _

/-- The slot has its table. -/
theorem table (h : Held directory m o i f n) : present (m.mem (directory o) (384 + i)) = true := by
  have hpresent := h.present_pte h.some
  by_contra hno
  rw [pte_of_absent (by rw [page_index i (by decide)]; simpa using hno)] at hpresent
  cases hpresent

/-- Unmapped and mapped again, the pages are what they were. -/
theorem filled_emptied (h : Held directory m o i f n) (p : ℕ) :
    filled (emptied (m.pte (directory o)) i 0 n) i f 0 n p = m.pte (directory o) p := by
  rcases slot_or_outside i p with ⟨k, -, rfl⟩ | hp
  · rcases Nat.lt_or_ge k n with hk | hk
    · rw [filled_at _ i f hk, h.mapped k hk]
    · rw [filled_rest _ i f hk, emptied_rest _ i hk]
  · rw [filled_outside _ f h.fits hp, emptied_outside _ h.fits hp]

theorem unmapped (h : Held directory m o i f n) (hs : Spaces m directory) :
    Edited directory m (unmapLoop (directory o) (address i) n 0 m) o (emptied (m.pte (directory o)) i 0 n) ∧
      (unmapLoop (directory o) (address i) n 0 m).bitmap = m.bitmap := by
  refine unmapLoop_spec hs h.live (by rw [Nat.zero_add]; exact h.fits) fun q hlo hhi => ?_
  obtain ⟨k, rfl⟩ := Nat.exists_eq_add_of_le hlo
  exact h.present_pte (Nat.lt_of_add_lt_add_left hhi)

end Held

/-! ## Release -/

/-- The buffer is gone from the space, and its frames are free. -/
structure Released (directory : ℕ → ℕ) (m m' : Machine) (o : ℕ) (i : WindowSlot) (f n : ℕ) : Prop where
  spaces : Spaces m' directory
  total : m'.totalFrames = m.totalFrames
  slot : ∀ k < 1024, present (m'.pte (directory o) (firstPage i + k)) = false
  outside : ∀ p < pageCount, Outside i p → m'.pte (directory o) p = m.pte (directory o) p
  other : ∀ o', o' ≠ o → directory o' ≠ 0 → ∀ p < pageCount, m'.pte (directory o') p = m.pte (directory o') p
  used : ∀ g, m'.bitmap g = true ↔ m.bitmap g = true ∧ ¬InRun f n g
  loose : ∀ g, m.bitmap g = true → m.Loose directory g → m'.Loose directory g ∧ m'.mem g = m.mem g

theorem Held.released (h : Held directory m o i f n) (hs : Spaces m directory) :
    Released directory m ((unmapLoop (directory o) (address i) n 0 m).pmmFreeContiguous f n) o i f n := by
  obtain ⟨hedit, hbitmap⟩ := h.unmapped hs
  generalize unmapLoop (directory o) (address i) n 0 m = u at *
  have hin : f + n ≤ u.totalFrames := by
    rw [hedit.total]
    exact h.run.2
  obtain ⟨hgiven, hmem, htotal⟩ := pmmFreeContiguous_spec u hin
  obtain ⟨hspaces, hpte, hloose, -⟩ := freeRun_spaces hedit.spaces h.run.1 hin fun g hg => (hedit.loose g (h.used g hg) (h.loose g hg)).1
  refine ⟨hspaces, htotal.trans hedit.total, fun k hk => ?_, fun p hp hout => ?_, fun o' hne ho' p hp => ?_, fun g => ?_, fun g hg hl => ?_⟩
  · rw [hpte o h.live _ (slot_page_lt i hk), hedit.pte _ (slot_page_lt i hk)]
    rcases Nat.lt_or_ge k n with hlt | hge
    · rw [emptied_at _ i hlt]
      rfl
    · rw [emptied_rest _ i hge]
      exact h.rest k hge hk
  · rw [hpte o h.live p hp, hedit.pte p hp, emptied_outside _ h.fits hout]
  · rw [hpte o' ho' p hp, hedit.other o' hne ho' p hp]
  · rw [hgiven, hbitmap]
  · obtain ⟨hlater, hkept⟩ := hedit.loose g hg hl
    exact ⟨(hloose g).mpr hlater, by rw [hmem, hkept]⟩

/-! ## Another buffer -/

/-- A zeroed run of frames that were free is mapped in a slot, in the place of the frames in `old`, which are free. -/
structure Replaced (directory : ℕ → ℕ) (m m' : Machine) (o : ℕ) (i : WindowSlot) (old : ℕ → Prop) (f n : ℕ) : Prop where
  spaces : Spaces m' directory
  total : m'.totalFrames = m.totalFrames
  held : Held directory m' o i f n
  free : ∀ g, InRun f n g → m.bitmap g = false
  outside : ∀ p < pageCount, Outside i p → m'.pte (directory o) p = m.pte (directory o) p
  other : ∀ o', o' ≠ o → directory o' ≠ 0 → ∀ p < pageCount, m'.pte (directory o') p = m.pte (directory o') p
  used : ∀ g, m'.bitmap g = true ↔ (m.bitmap g = true ∧ ¬old g) ∨ InRun f n g ∨ m'.IsTable (directory o) g
  freed : ∀ g, old g → m'.bitmap g = false
  zeroed : ∀ g, InRun f n g → m'.mem g = fun _ => 0
  loose : ∀ g, m.bitmap g = true → m.Loose directory g → m'.Loose directory g ∧ m'.mem g = m.mem g

/-- A run that is put where nothing was. -/
theorem Placed.replaced (h : Placed directory m m' o i f n) (ho : directory o ≠ 0) (hn : 0 < n) (hfit : n ≤ 1024)
    (hempty : ∀ k < 1024, present (m.pte (directory o) (firstPage i + k)) = false) :
    Replaced directory m m' o i (fun _ => False) f n where
  spaces := h.spaces
  total := h.total
  held := {
    live := ho
    some := hn
    fits := hfit
    run := ⟨h.run.1, by rw [h.total]; exact h.run.2⟩
    mapped := fun k hk => by
      rw [h.pte _ (slot_page_lt i (Nat.lt_of_lt_of_le hk hfit)), filled_at _ i f hk]
    rest := fun k hk hlt => by
      rw [h.pte _ (slot_page_lt i hlt), filled_rest _ i f hk]
      exact hempty k hlt
    used := fun g hg => (h.used g).mpr (Or.inr (Or.inl hg))
    loose := fun g hg => (h.zeroed g hg).1 }
  free := h.free
  outside := fun p hp hout => by rw [h.pte p hp, filled_outside _ f hfit hout]
  other := h.other
  used := fun g => by rw [h.used, not_false_iff, and_true]
  freed := fun _ hfalse => hfalse.elim
  zeroed := fun g hg => (h.zeroed g hg).2
  loose := h.loose

/-- A buffer that cannot be exchanged is put back, and nothing has changed. -/
theorem Held.putBack (h : Held directory m o i f n) {u a : Machine}
    (hedit : Edited directory m u o (emptied (m.pte (directory o)) i 0 n)) (hbitmap : u.bitmap = m.bitmap)
    (ha : Unchanged directory u a) (hpd : a.mem (directory o) = u.mem (directory o)) :
    Unchanged directory m (remapLoop (directory o) (address i) f n 0 a) := by
  have hpde : present (a.mem (directory o) (384 + i)) = true := by
    rw [hpd]
    exact hedit.entry _ h.table
  have hend : 0 + n ≤ 1024 := by
    rw [Nat.zero_add]
    exact h.fits
  obtain ⟨m', -, hremap, hback, hbitmap'⟩ := mapLoop_present ha.spaces h.live h.run.1 hend hpde
  rw [hremap]
  refine ⟨hback.spaces, hback.total.trans (ha.total.trans hedit.total), ?_, fun o' ho' p hp => ?_, fun g hg hl => ?_⟩
  · rw [hbitmap', ha.bitmap, hbitmap]
  · rcases eq_or_ne o' o with rfl | hne
    · have hold : a.pte (directory o') p = emptied (m.pte (directory o')) i 0 n p := by rw [ha.pte o' ho' p hp, hedit.pte p hp]
      rw [hback.pte p hp, ← h.filled_emptied p]
      unfold filled
      rw [hold]
    · rw [hback.other o' hne ho' p hp, ha.pte o' ho' p hp, hedit.other o' hne ho' p hp]
  · obtain ⟨hl₁, hm₁⟩ := hedit.loose g hg hl
    obtain ⟨hl₂, hm₂⟩ := ha.loose g (by rw [hbitmap]; exact hg) hl₁
    obtain ⟨hl₃, hm₃⟩ := hback.loose g (by rw [ha.bitmap, hbitmap]; exact hg) hl₂
    exact ⟨hl₃, hm₃.trans (hm₂.trans hm₁)⟩

/-- A buffer is exchanged: the new run is in its place, and the old frames are free. -/
theorem Held.exchanged (h : Held directory m o i f n) {u a : Machine}
    (hedit : Edited directory m u o (emptied (m.pte (directory o)) i 0 n)) (hbitmap : u.bitmap = m.bitmap)
    (hn : 0 < n') (hfit : n' ≤ 1024) (ha : Placed directory u a o i f' n') :
    Replaced directory m (a.pmmFreeContiguous f n) o i (InRun f n) f' n' ∧
      ∀ g, (a.pmmFreeContiguous f n).bitmap g = true ↔ (m.bitmap g = true ∧ ¬InRun f n g) ∨ InRun f' n' g := by
  have hall : a.totalFrames = m.totalFrames := ha.total.trans hedit.total
  have hin : f + n ≤ a.totalFrames := by
    rw [hall]
    exact h.run.2
  obtain ⟨hgiven, hmem, htotal⟩ := pmmFreeContiguous_spec a hin
  have hkept : ∀ g, m.bitmap g = true → m.Loose directory g → a.Loose directory g ∧ a.mem g = m.mem g := by
    intro g hg hl
    obtain ⟨hl₁, hm₁⟩ := hedit.loose g hg hl
    obtain ⟨hl₂, hm₂⟩ := ha.loose g (by rw [hbitmap]; exact hg) hl₁
    exact ⟨hl₂, hm₂.trans hm₁⟩
  obtain ⟨hspaces, hpte, hloose, -⟩ := freeRun_spaces ha.spaces h.run.1 hin fun g hg => (hkept g (h.used g hg) (h.loose g hg)).1
  have hfree : ∀ g, InRun f' n' g → m.bitmap g = false := fun g hg => by
    rw [← hbitmap]
    exact ha.free g hg
  have happart : ∀ g, InRun f' n' g → ¬InRun f n g := fun g hg hold => by
    have hclash := hfree g hg
    rw [h.used g hold] at hclash
    cases hclash
  have hused : ∀ g, (a.pmmFreeContiguous f n).bitmap g = true ↔ (m.bitmap g = true ∧ ¬InRun f n g) ∨ InRun f' n' g := by
    intro g
    rw [hgiven, ha.table (hedit.entry _ h.table), hbitmap]
    constructor
    · rintro ⟨hg | hg, hout⟩
      · exact Or.inl ⟨hg, hout⟩
      · exact Or.inr hg
    · rintro (⟨hg, hout⟩ | hg)
      · exact ⟨Or.inl hg, hout⟩
      · exact ⟨Or.inr hg, happart g hg⟩
  have hentries : ∀ p < pageCount, (a.pmmFreeContiguous f n).pte (directory o) p =
      filled (emptied (m.pte (directory o)) i 0 n) i f' 0 n' p := by
    intro p hp
    rw [hpte o h.live p hp, ha.pte p hp]
    unfold filled
    rw [hedit.pte p hp]
  refine ⟨⟨hspaces, htotal.trans hall, ⟨h.live, hn, hfit, ⟨ha.run.1, ?_⟩, fun k hk => ?_, fun k hk hlt => ?_,
      fun g hg => (hused g).mpr (Or.inr hg), fun g hg => (hloose g).mpr (ha.zeroed g hg).1⟩,
    hfree, fun p hp hout => ?_, fun o' hne ho' p hp => ?_, fun g => ?_, fun g hg => ?_, fun g hg => ?_, fun g hg hl => ?_⟩, hused⟩
  · rw [htotal, ha.total]
    exact ha.run.2
  · rw [hentries _ (slot_page_lt i (Nat.lt_of_lt_of_le hk hfit)), filled_at _ i f' hk]
  · rw [hentries _ (slot_page_lt i hlt), filled_rest _ i f' hk]
    rcases Nat.lt_or_ge k n with hkn | hkn
    · rw [emptied_at _ i hkn]
      rfl
    · rw [emptied_rest _ i hkn]
      exact h.rest k hkn hlt
  · rw [hentries p hp, filled_outside _ f' hfit hout, emptied_outside _ h.fits hout]
  · rw [hpte o' ho' p hp, ha.other o' hne ho' p hp, hedit.other o' hne ho' p hp]
  · rw [hused, ← or_assoc]
    exact ⟨Or.inl, fun hor => hor.elim id fun htable => (hused g).mp ((hspaces.space o h.live).used_table htable)⟩
  · rw [← Bool.not_eq_true, hgiven]
    exact fun hand => hand.2 hg
  · rw [hmem]
    exact (ha.zeroed g hg).2
  · obtain ⟨hlater, hsame⟩ := hkept g hg hl
    exact ⟨(hloose g).mpr hlater, by rw [hmem, hsame]⟩

end SifarOS.WindowBuffers
