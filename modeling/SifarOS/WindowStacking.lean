import Mathlib.Data.List.Nodup
import SifarOS.ReachableStates
import SifarOS.WindowServer

/-! # The stacking order

`z_order[0..z_count)` against the window table, over every run of calls. -/
namespace SifarOS.WindowStacking
open Graphics WindowServer ReachableStates

section Arrays
variable {α : Type*}

/-- The first `n` entries of an array. -/
def entries (z : ℕ → α) (n : ℕ) : List α := (List.range n).map z

@[simp] theorem length_entries (z : ℕ → α) (n : ℕ) : (entries z n).length = n := by simp [entries]

@[simp] theorem getElem_entries (z : ℕ → α) (n k : ℕ) (h : k < (entries z n).length) :
    (entries z n)[k] = z k := by simp [entries]

theorem entries_succ (z : ℕ → α) (n : ℕ) : entries z (n + 1) = entries z n ++ [z n] := by
  simp [entries, List.range_succ]

theorem entries_congr {z z' : ℕ → α} {n : ℕ} (h : ∀ k < n, z k = z' k) : entries z n = entries z' n :=
  List.map_congr_left fun k hk => h k (List.mem_range.mp hk)

theorem mem_take_entries {z : ℕ → α} {n p : ℕ} {a : α} (h : a ∈ (entries z n).take p) :
    ∃ k, k < p ∧ k < n ∧ z k = a := by
  obtain ⟨k, hk, rfl⟩ := List.mem_take_iff_getElem.mp h
  simp only [length_entries, Nat.lt_min] at hk
  exact ⟨k, hk.1, hk.2, (getElem_entries z n k _).symm⟩

theorem mem_drop_entries {z : ℕ → α} {n p : ℕ} {a : α} (h : a ∈ (entries z n).drop p) :
    ∃ k, p ≤ k ∧ k < n ∧ z k = a := by
  obtain ⟨k, hk, rfl⟩ := List.mem_drop_iff_getElem.mp h
  simp only [length_entries] at hk
  exact ⟨p + k, Nat.le_add_right p k, by omega, (getElem_entries z n (p + k) _).symm⟩

theorem entries_pairwise {z : ℕ → α} {n : ℕ} {R : α → α → Prop} (h : (entries z n).Pairwise R) {k l : ℕ}
    (hkl : k < l) (hl : l < n) : R (z k) (z l) := by
  have := List.pairwise_iff_getElem.mp h k l (by simp; omega) (by simpa) hkl
  simpa using this

/-- Moving down the entries that stay: what the array starts with afterwards, and that the entries
not reached yet are untouched. -/
theorem keep_loop [DecidableEq α] (z : ℕ → α) (a : α) (n : ℕ) :
    let r := (List.range n).foldl
      (fun (z, out) i => if z i ≠ a then (Function.update z out (z i), out + 1) else (z, out)) (z, 0)
    entries r.1 r.2 = (entries z n).filter (· ≠ a) ∧ r.2 ≤ n ∧ ∀ k, r.2 ≤ k → r.1 k = z k := by
  induction n with
  | zero => simp [entries]
  | succ n ih =>
    rw [List.range_succ, List.foldl_append, entries_succ, List.filter_append]
    generalize (List.range n).foldl _ (z, 0) = r at ih ⊢
    obtain ⟨z', out⟩ := r
    obtain ⟨hkeep, hle, hrest⟩ := ih
    have hn : z' n = z n := hrest n hle
    simp only [List.foldl_cons, List.foldl_nil, hn]
    by_cases ha : z n = a
    · rw [if_neg (not_not.mpr ha)]
      refine ⟨?_, by simp only; omega, hrest⟩
      simpa [ha] using hkeep
    · rw [if_pos ha]
      dsimp only at hkeep hle hrest ⊢
      refine ⟨?_, by omega, fun k hk => ?_⟩
      · have hsame : entries (Function.update z' out (z n)) out = entries z' out :=
          entries_congr fun k hk => Function.update_of_ne (by omega) _ _
        rw [entries_succ, Function.update_self, hsame, hkeep]
        simp [ha]
      · rw [Function.update_of_ne (by omega)]
        exact hrest k (by omega)

/-- Moving up the last `m` entries of the first `n` by one. -/
theorem shift_loop (z : ℕ → α) (n m : ℕ) (hm : m ≤ n) (k : ℕ) :
    ((List.range m).foldl (fun z k => Function.update z (n - k) (z (n - k - 1))) z) k =
      if n - m < k ∧ k ≤ n then z (k - 1) else z k := by
  induction m generalizing k with
  | zero => rw [if_neg (by omega)]; rfl
  | succ m ih =>
    rw [List.range_succ, List.foldl_append, List.foldl_cons, List.foldl_nil]
    by_cases hk : k = n - m
    · subst hk
      rw [Function.update_self, ih (by omega), if_neg (by omega), if_pos (by omega)]
    · rw [Function.update_of_ne hk, ih (by omega)]
      exact if_congr (by omega) rfl rfl

/-- Making room at a position and storing there. -/
theorem entries_shift (z : ℕ → α) (n p : ℕ) (hp : p ≤ n) (a : α) :
    entries (Function.update
      ((List.range (n - p)).foldl (fun z k => Function.update z (n - k) (z (n - k - 1))) z) p a) (n + 1) =
      (entries z n).take p ++ a :: (entries z n).drop p := by
  apply List.ext_getElem
  · simp; omega
  · intro k h₁ h₂
    rw [getElem_entries]
    simp only [length_entries] at h₁
    rcases Nat.lt_trichotomy k p with hk | rfl | hk
    · rw [Function.update_of_ne (by omega), shift_loop z n (n - p) (by omega), if_neg (by omega),
        List.getElem_append_left (by simp; omega)]
      simp
    · rw [Function.update_self, List.getElem_append_right (by simp)]
      simp [hp]
    · rw [Function.update_of_ne (by omega), shift_loop z n (n - p) (by omega), if_pos (by omega),
        List.getElem_append_right (by simp; omega)]
      have hlen : ((entries z n).take p).length = p := by simp; omega
      simp only [hlen]
      rw [List.getElem_cons]
      rw [dif_neg (by omega), List.getElem_drop, getElem_entries]
      congr 1
      omega

end Arrays

/-- `z_order[0..z_count)`. -/
def stack (s : Server) : List UInt32 := entries s.zOrder s.zCount

theorem stack_zRemove (s : Server) (id : UInt32) : stack (s.zRemove id) = (stack s).filter (· ≠ id) :=
  (keep_loop s.zOrder id s.zCount).1

theorem zPosition_le (s : Server) (flags : UInt32) : s.zPosition flags ≤ s.zCount := by
  unfold Server.zPosition
  split
  · exact Nat.zero_le _
  · split
    · exact Nat.le_refl _
    · generalize hf : List.find? _ _ = found
      cases found with
      | none => exact Nat.le_refl _
      | some k => exact Nat.le_of_lt (List.mem_range.mp (List.mem_of_find?_eq_some hf))

theorem stack_zInsert (s : Server) (id flags : UInt32) :
    stack (s.zInsert id flags) = (stack s).take (s.zPosition flags) ++ id :: (stack s).drop (s.zPosition flags) :=
  entries_shift s.zOrder s.zCount (s.zPosition flags) (zPosition_le s flags) id

/-- The ids of the windows in use are distinct. -/
def DistinctIds (s : Server) : Prop :=
  ∀ i j, (s.windows i).used → (s.windows j).used → (s.windows i).id = (s.windows j).id → i = j

/-- The three bands, from the back to the front. -/
def band (flags : UInt32) : ℕ := if has flags guiBottom then 0 else if has flags guiTop then 2 else 1

/-- The window with the first id belongs in no band in front of the other's. -/
def InOrder (s : Server) (a b : UInt32) : Prop :=
  ∀ i j, (s.windows i).used → (s.windows j).used → (s.windows i).id = a → (s.windows j).id = b →
    band (s.windows i).flags ≤ band (s.windows j).flags

/-- The stack lists the windows in use, one band after the other. -/
structure Layered (s : Server) : Prop where
  ids : DistinctIds s
  nodup : (stack s).Nodup
  mem_iff : ∀ id, id ∈ stack s ↔ ∃ i, (s.windows i).used ∧ (s.windows i).id = id
  ordered : (stack s).Pairwise (InOrder s)

/-- The same with window `i` taken out of the stack. -/
structure LayeredBut (i : WindowSlot) (s : Server) : Prop where
  ids : DistinctIds s
  nodup : (stack s).Nodup
  mem_iff : ∀ id, id ∈ stack s ↔ ∃ j, j ≠ i ∧ (s.windows j).used ∧ (s.windows j).id = id
  ordered : (stack s).Pairwise (InOrder s)

/-- Nothing the stacking order depends on has changed. -/
structure Same (s t : Server) : Prop where
  zOrder : t.zOrder = s.zOrder
  zCount : t.zCount = s.zCount
  used : ∀ i, (t.windows i).used = (s.windows i).used
  id : ∀ i, (t.windows i).id = (s.windows i).id
  flags : ∀ i, (t.windows i).flags = (s.windows i).flags

namespace Same
variable {s t u : Server}

theorem of_windows (hw : t.windows = s.windows) (hz : t.zOrder = s.zOrder) (hc : t.zCount = s.zCount) :
    Same s t := ⟨hz, hc, fun _ => by rw [hw], fun _ => by rw [hw], fun _ => by rw [hw]⟩

theorem refl (s : Server) : Same s s := of_windows rfl rfl rfl

theorem trans (h₁ : Same s t) (h₂ : Same t u) : Same s u :=
  ⟨h₂.zOrder.trans h₁.zOrder, h₂.zCount.trans h₁.zCount, fun i => (h₂.used i).trans (h₁.used i),
    fun i => (h₂.id i).trans (h₁.id i), fun i => (h₂.flags i).trans (h₁.flags i)⟩

theorem stack_eq (h : Same s t) : stack t = stack s := by
  rw [stack, stack, h.zOrder, h.zCount]

theorem distinctIds (h : Same s t) (hs : DistinctIds s) : DistinctIds t := by
  intro i j hi hj hid
  rw [h.used] at hi hj
  rw [h.id, h.id] at hid
  exact hs i j hi hj hid

theorem inOrder (h : Same s t) {a b : UInt32} (hab : InOrder s a b) : InOrder t a b := by
  intro i j hi hj hia hjb
  rw [h.used] at hi hj
  rw [h.id] at hia hjb
  rw [h.flags, h.flags]
  exact hab i j hi hj hia hjb

theorem layered (h : Same s t) (hs : Layered s) : Layered t where
  ids := h.distinctIds hs.ids
  nodup := h.stack_eq ▸ hs.nodup
  mem_iff id := by simp only [h.stack_eq, h.used, h.id, hs.mem_iff]
  ordered := h.stack_eq ▸ hs.ordered.imp h.inOrder

theorem setWindow (s : Server) (i : WindowSlot) (w : Window) (hu : w.used = (s.windows i).used)
    (hid : w.id = (s.windows i).id) (hf : w.flags = (s.windows i).flags) : Same s (s.setWindow i w) := by
  refine ⟨rfl, rfl, fun k => ?_, fun k => ?_, fun k => ?_⟩ <;>
  · by_cases hk : k = i
    · subst hk
      simpa [Server.setWindow]
    · simp [Server.setWindow, hk]

theorem queueEvent (s : Server) (i : WindowSlot) (event : Event) :
    Same s (s.setWindow i ((s.windows i).queueEvent event)) := by
  apply setWindow <;>
  · unfold Window.queueEvent
    dsimp only
    split <;> rfl

theorem damageWindow (s : Server) (i : WindowSlot) : Same s (s.damageWindow i) := of_windows rfl rfl rfl

theorem notify (s : Server) (id : UInt32) (type : EventType) : Same s (s.notify id type) := by
  unfold Server.notify
  split
  · exact (queueEvent s _ _).trans (damageWindow _ _)
  · exact refl s

theorem focusOn (s : Server) (id : UInt32) : Same s (s.focusOn id) := of_windows rfl rfl rfl

theorem setFocus (s : Server) (id : UInt32) : Same s (s.setFocus id) := by
  unfold Server.setFocus
  split
  · exact refl s
  · exact ((notify s _ _).trans (focusOn _ _)).trans (notify _ _ _)

theorem moveTo (s : Server) (i : WindowSlot) (x y : Int32) : Same s (s.moveTo i x y) :=
  setWindow s i _ rfl rfl rfl

theorem setState (s : Server) (i : WindowSlot) (state : WindowState) : Same s (s.setState i state) :=
  setWindow s i _ rfl rfl rfl

theorem wmMinimize (s : Server) (id : UInt32) : Same s (s.wmMinimize id).1 := by
  unfold Server.wmMinimize
  split
  · exact refl s
  · next i _ =>
    dsimp only
    split
    · exact ((damageWindow s i).trans (setState _ i _)).trans (of_windows rfl rfl rfl)
    · split <;> exact ((damageWindow s i).trans (setState _ i _)).trans (of_windows rfl rfl rfl)

theorem wmResizeWindow (screen : Screen) (s : Server) (owner : ℕ) (id : UInt32) (width height : Int32)
    (granted : Bool) : Same s (s.wmResizeWindow screen owner id width height granted).1 := by
  unfold Server.wmResizeWindow
  split
  · exact refl s
  · next i _ =>
    dsimp only
    split
    · exact refl s
    · split
      · exact refl s
      · split
        · exact refl s
        · split
          · exact damageWindow s i
          · refine (damageWindow s i).trans (Same.trans ?_ (damageWindow _ i))
            apply setWindow <;>
            · unfold Window.sendSimple Window.queueEvent
              dsimp only
              split <;> rfl

theorem handleMouseUp (s : Server) (x y button : Int32) : Same s (s.handleMouseUp x y button) := by
  unfold Server.handleMouseUp
  split
  · exact of_windows rfl rfl rfl
  · split
    · split
      · exact Same.trans (t := { s with resizeId := 0 }) (of_windows rfl rfl rfl) (queueEvent _ _ _)
      · exact of_windows rfl rfl rfl
    · split
      · exact queueEvent s _ _
      · exact refl s

theorem handleMouseMove (screen : Screen) (s : Server) (x y : Int32) (buttons : UInt32) (granted : Bool) :
    Same s (s.handleMouseMove screen x y buttons granted) := by
  unfold Server.handleMouseMove
  split
  · split
    · exact refl s
    · exact (damageWindow s _).trans ((moveTo _ _ _ _).trans (damageWindow _ _))
  · split
    · split
      · exact refl s
      · dsimp only
        split
        · exact wmResizeWindow _ _ _ _ _ _ _
        · exact refl s
    · split
      · exact queueEvent s _ _
      · exact refl s

end Same

theorem find_some {s : Server} {id : UInt32} {i : WindowSlot} (h : s.find id = some i) :
    (s.windows i).used ∧ (s.windows i).id = id := by
  have hp := List.find?_some h
  simp only [Bool.and_eq_true, beq_iff_eq] at hp
  exact hp

theorem DistinctIds.find {s : Server} (h : DistinctIds s) {i : WindowSlot} (hu : (s.windows i).used) :
    s.find (s.windows i).id = some i := by
  cases hf : s.find (s.windows i).id with
  | none =>
    have hn := List.find?_eq_none.mp hf i (List.mem_finRange i)
    simp [hu] at hn
  | some j =>
    obtain ⟨hj, hid⟩ := find_some hf
    rw [h j i hj hu hid]

theorem zRemove_windows (s : Server) (id : UInt32) : (s.zRemove id).windows = s.windows := rfl

theorem zInsert_windows (s : Server) (id flags : UInt32) : (s.zInsert id flags).windows = s.windows := rfl

/-- Flags that send `z_insert` looking for the first `GUI_TOP` window. -/
def Plain (flags : UInt32) : Prop := has flags guiBottom = false ∧ has flags guiTop = false

/-- The window has both bits, which put it in the back while the search for the front band stops
at it. -/
def Torn (flags : UInt32) : Prop := has flags guiBottom ∧ has flags guiTop

/-- A window with these flags can go back into slot `i`: it is not plain, or no other window is
torn. -/
def Clear (s : Server) (i : WindowSlot) (flags : UInt32) : Prop :=
  Plain flags → ∀ j, j ≠ i → (s.windows j).used → ¬Torn (s.windows j).flags

namespace LayeredBut
variable {s : Server} {i : WindowSlot}

theorem of_same {t : Server} (h : LayeredBut i s) (hst : Same s t) : LayeredBut i t where
  ids := hst.distinctIds h.ids
  nodup := hst.stack_eq ▸ h.nodup
  mem_iff id := by simp only [hst.stack_eq, hst.used, hst.id, h.mem_iff]
  ordered := hst.stack_eq ▸ h.ordered.imp hst.inOrder

/-- A listed id is another window's, so window `i` is in order with it as soon as its band is. -/
theorem slot_of_mem (h : LayeredBut i s) {id : UInt32} (hid : id ∈ stack s) :
    ∃ j, j ≠ i ∧ (s.windows j).used ∧ (s.windows j).id = id ∧ s.find id = some j := by
  obtain ⟨j, hne, hu, rfl⟩ := (h.mem_iff id).mp hid
  exact ⟨j, hne, hu, rfl, h.ids.find hu⟩

theorem inOrder_behind (h : LayeredBut i s) {id : UInt32} {j : WindowSlot} (hj : s.find id = some j)
    (hu : (s.windows i).used) (hb : band (s.windows j).flags ≤ band (s.windows i).flags) :
    InOrder s id (s.windows i).id := by
  intro k l hk hl hid hidl
  obtain rfl := h.ids l i hl hu hidl
  have hkj : k = j := h.ids k j hk (find_some hj).1 (hid.trans (find_some hj).2.symm)
  rw [hkj]
  exact hb

theorem inOrder_front (h : LayeredBut i s) {id : UInt32} {j : WindowSlot} (hj : s.find id = some j)
    (hu : (s.windows i).used) (hb : band (s.windows i).flags ≤ band (s.windows j).flags) :
    InOrder s (s.windows i).id id := by
  intro k l hk hl hidk hid
  obtain rfl := h.ids k i hk hu hidk
  have hlj : l = j := h.ids l j hl (find_some hj).1 (hid.trans (find_some hj).2.symm)
  rw [hlj]
  exact hb

theorem band_le_two (flags : UInt32) : band flags ≤ 2 := by
  unfold band
  split
  · omega
  · split <;> omega

/-- The window `z_insert` stops at, when it looks for one. -/
theorem zPosition_plain (s : Server) {flags : UInt32} (hp : Plain flags) :
    (∀ id ∈ (stack s).take (s.zPosition flags), ∀ j, s.find id = some j → has (s.windows j).flags guiTop = false) ∧
    ∀ k, s.zPosition flags = k → k < s.zCount →
      ∃ j, s.find (s.zOrder k) = some j ∧ has (s.windows j).flags guiTop := by
  unfold Server.zPosition
  rw [if_neg (by simp [hp.1]), if_neg (by simp [hp.2])]
  generalize hf : List.find? _ (List.range s.zCount) = found
  cases found with
  | none =>
    refine ⟨fun id hid j hj => ?_, fun k hk hlt => absurd hlt (by simp [← hk])⟩
    obtain ⟨k, -, hk, rfl⟩ := mem_take_entries hid
    have hnot := List.find?_eq_none.mp hf k (List.mem_range.mpr hk)
    simpa [hj] using hnot
  | some p =>
    obtain ⟨hpt, hpn, hpl⟩ := List.find?_range_eq_some.mp hf
    refine ⟨fun id hid j hj => ?_, fun k hk _ => ?_⟩
    · obtain ⟨k, hkp, -, rfl⟩ := mem_take_entries hid
      have hnot := hpl k hkp
      simpa [hj] using hnot
    · obtain rfl : p = k := hk
      cases hj : s.find (s.zOrder p) with
      | none => simp [hj] at hpt
      | some j => exact ⟨j, rfl, by simpa [hj] using hpt⟩

/-- Everything behind the position belongs no further in front than the window, everything from it
on no further behind. -/
theorem zPosition_bands (h : LayeredBut i s) {flags : UInt32} (hc : Clear s i flags) :
    (∀ id ∈ (stack s).take (s.zPosition flags), ∀ j, s.find id = some j →
      band (s.windows j).flags ≤ band flags) ∧
    ∀ id ∈ (stack s).drop (s.zPosition flags), ∀ j, s.find id = some j →
      band flags ≤ band (s.windows j).flags := by
  by_cases hb : has flags guiBottom = true
  · have hpos : s.zPosition flags = 0 := by simp [Server.zPosition, hb]
    have hband : band flags = 0 := by simp [band, hb]
    rw [hpos, hband]
    exact ⟨fun id hid => by simp at hid, fun _ _ _ _ => Nat.zero_le _⟩
  · by_cases ht : has flags guiTop = true
    · have hpos : s.zPosition flags = s.zCount := by simp [Server.zPosition, hb, ht]
      have hband : band flags = 2 := by simp [band, hb, ht]
      rw [hpos, hband]
      refine ⟨fun _ _ j _ => band_le_two _, fun id hid => ?_⟩
      obtain ⟨k, hk, hn, -⟩ := mem_drop_entries hid
      omega
    · have hplain : Plain flags := ⟨by simpa using hb, by simpa using ht⟩
      have hband : band flags = 1 := by simp [band, hb, ht]
      obtain ⟨hbehind, hat⟩ := zPosition_plain s hplain
      rw [hband]
      refine ⟨fun id hid j hj => ?_, fun id hid j hj => ?_⟩
      · have hnt := hbehind id hid j hj
        unfold band
        split
        · omega
        · rw [hnt]; simp
      · -- the window at the position is in the front band, and the order holds from there on
        obtain ⟨k, hpk, hk, rfl⟩ := mem_drop_entries hid
        obtain ⟨j₀, hj₀, htop⟩ := hat _ rfl (by omega)
        have hmem : s.zOrder (s.zPosition flags) ∈ stack s :=
          List.mem_map.mpr ⟨_, List.mem_range.mpr (by omega), rfl⟩
        obtain ⟨j₁, hne, hu, hid₁, hj₁⟩ := h.slot_of_mem hmem
        obtain rfl : j₀ = j₁ := Option.some.inj (hj₀.symm.trans hj₁)
        have hnb : has (s.windows j₀).flags guiBottom = false := by
          have := hc hplain j₀ hne hu
          simpa [Torn, htop] using this
        have hband₀ : band (s.windows j₀).flags = 2 := by simp [band, hnb, htop]
        rcases Nat.eq_or_lt_of_le hpk with heq | hlt
        · rw [← heq] at hj
          obtain rfl : j₀ = j := Option.some.inj (hj₀.symm.trans hj)
          omega
        · have := entries_pairwise h.ordered hlt hk j₀ j hu (find_some hj).1 hid₁ (find_some hj).2
          omega

/-- `z_insert` puts the window back. -/
theorem zInsert (h : LayeredBut i s) (hu : (s.windows i).used) (hc : Clear s i (s.windows i).flags) :
    Layered (s.zInsert (s.windows i).id (s.windows i).flags) := by
  obtain ⟨hbehind, hfront⟩ := h.zPosition_bands hc
  have hstack := stack_zInsert s (s.windows i).id (s.windows i).flags
  generalize s.zPosition (s.windows i).flags = p at hbehind hfront hstack
  have hsplit : stack s = (stack s).take p ++ (stack s).drop p := (List.take_append_drop p _).symm
  have hnot : (s.windows i).id ∉ stack s := by
    intro hmem
    obtain ⟨j, hne, hj, hid⟩ := (h.mem_iff _).mp hmem
    exact hne (h.ids j i hj hu hid)
  have hperm : (stack (s.zInsert (s.windows i).id (s.windows i).flags)).Perm ((s.windows i).id :: stack s) := by
    rw [hstack]
    exact List.perm_middle.trans (List.Perm.cons _ (List.Perm.of_eq hsplit.symm))
  refine ⟨h.ids, ?_, fun id => ?_, ?_⟩
  · exact hperm.nodup_iff.mpr (List.nodup_cons.mpr ⟨hnot, h.nodup⟩)
  · rw [hperm.mem_iff, List.mem_cons, h.mem_iff]
    constructor
    · rintro (rfl | ⟨j, -, hj, hid⟩)
      · exact ⟨i, hu, rfl⟩
      · exact ⟨j, hj, hid⟩
    · rintro ⟨j, hj, hid⟩
      by_cases hji : j = i
      · exact .inl (by rw [← hid, hji]; rfl)
      · exact .inr ⟨j, hji, hj, hid⟩
  · have hord := h.ordered
    rw [hsplit, List.pairwise_append] at hord
    obtain ⟨hord₁, hord₂, hcross⟩ := hord
    have hslot : ∀ {id}, id ∈ stack s → ∃ j, s.find id = some j := fun hid =>
      let ⟨j, _, _, _, hj⟩ := h.slot_of_mem hid
      ⟨j, hj⟩
    rw [hstack, List.pairwise_append, List.pairwise_cons]
    refine ⟨hord₁, ⟨fun id hid => ?_, hord₂⟩, fun a ha b hb => ?_⟩
    · obtain ⟨j, hj⟩ := hslot (List.mem_of_mem_drop hid)
      exact h.inOrder_front hj hu (hfront id hid j hj)
    · rcases List.mem_cons.mp hb with rfl | hb
      · obtain ⟨j, hj⟩ := hslot (List.mem_of_mem_take ha)
        exact h.inOrder_behind hj hu (hbehind a ha j hj)
      · exact hcross a ha b hb

/-- What the absent window becomes does not matter, as long as its id is its own. -/
theorem setWindow (h : LayeredBut i s) (w : Window)
    (hid : w.used → ∀ j, j ≠ i → (s.windows j).used → (s.windows j).id ≠ w.id) :
    LayeredBut i (s.setWindow i w) := by
  have hself := s.setWindow_windows_self i w
  have hother : ∀ {j}, j ≠ i → (s.setWindow i w).windows j = s.windows j := fun hj =>
    s.setWindow_windows_ne w hj
  have hids : DistinctIds (s.setWindow i w) := by
    intro j k hj hk hjk
    by_cases hji : j = i <;> by_cases hki : k = i
    · rw [hji, hki]
    · subst hji
      rw [hself] at hj hjk
      rw [hother hki] at hk hjk
      exact absurd hjk.symm (hid hj k hki hk)
    · subst hki
      rw [hself] at hk hjk
      rw [hother hji] at hj hjk
      exact absurd hjk (hid hk j hji hj)
    · rw [hother hji] at hj hjk
      rw [hother hki] at hk hjk
      exact h.ids j k hj hk hjk
  have hmem : ∀ id, id ∈ stack s ↔ ∃ j, j ≠ i ∧ ((s.setWindow i w).windows j).used ∧
      ((s.setWindow i w).windows j).id = id := by
    intro id
    rw [h.mem_iff]
    exact exists_congr fun j => and_congr_right fun hj => by rw [hother hj]
  refine ⟨hids, h.nodup, hmem, h.ordered.imp_of_mem fun {a b} ha hb hab => ?_⟩
  intro j k hj hk hja hkb
  have hne : ∀ {id l}, id ∈ stack s → ((s.setWindow i w).windows l).used →
      ((s.setWindow i w).windows l).id = id → l ≠ i := by
    intro id l hid hl hlid
    obtain ⟨m, hm, hmu, hmid⟩ := (hmem id).mp hid
    rw [hids l m hl hmu (hlid.trans hmid.symm)]
    exact hm
  have hji := hne ha hj hja
  have hki := hne hb hk hkb
  rw [hother hji] at hj hja ⊢
  rw [hother hki] at hk hkb ⊢
  exact hab j k hj hk hja hkb

theorem layered (h : LayeredBut i s) (hu : (s.windows i).used = false) : Layered s where
  ids := h.ids
  nodup := h.nodup
  mem_iff id := by
    rw [h.mem_iff]
    exact exists_congr fun j => and_iff_right_of_imp fun hj hji => by simp [hji, hu] at hj
  ordered := h.ordered

end LayeredBut

/-- The conditions under which `wm_create_window` gets as far as `z_insert`. -/
structure Created (screen : Screen) (s : Server) (width height : Int32) (granted : Bool) : Prop where
  positive : ¬(width ≤ 0 ∨ height ≤ 0)
  fits : ¬(width > screen.width ∨ height > screen.height)
  granted : granted = true
  slot : ∃ i, (s.windows i).used = false

namespace Layered
variable {s : Server} {i : WindowSlot}

/-- `z_remove` takes the window out, and what its flags have become is of no concern. -/
theorem zRemove (h : Layered s) (hu : (s.windows i).used) : LayeredBut i (s.zRemove (s.windows i).id) where
  ids := h.ids
  nodup := by
    rw [stack_zRemove]
    exact h.nodup.filter _
  mem_iff id := by
    rw [stack_zRemove, List.mem_filter, h.mem_iff]
    simp only [ne_eq, decide_not, Bool.not_eq_true', decide_eq_false_iff_not, zRemove_windows]
    constructor
    · rintro ⟨⟨j, hj, rfl⟩, hne⟩
      exact ⟨j, fun hji => hne (by rw [hji]), hj, rfl⟩
    · rintro ⟨j, hne, hj, rfl⟩
      exact ⟨⟨j, hj, rfl⟩, fun hid => hne (h.ids j i hj hu hid)⟩
  ordered := by
    rw [stack_zRemove]
    exact h.ordered.filter _

theorem but (h : Layered s) (hu : (s.windows i).used = false) : LayeredBut i s where
  ids := h.ids
  nodup := h.nodup
  mem_iff id := by
    rw [h.mem_iff]
    exact exists_congr fun j => (and_iff_right_of_imp fun hj hji => by simp [hji, hu] at hj).symm
  ordered := h.ordered

theorem raiseWindow (h : Layered s) (hu : (s.windows i).used) (hc : Clear s i (s.windows i).flags) :
    Layered (s.raiseWindow i) :=
  (Same.damageWindow _ i).layered ((h.zRemove hu).zInsert hu hc)

theorem wmSetFlags (h : Layered s) (owner : ℕ) (id flags : UInt32)
    (hc : ∀ i, s.find id = some i → (s.windows i).owner = owner → Clear s i flags) :
    Layered (s.wmSetFlags owner id flags).1 := by
  unfold Server.wmSetFlags
  split
  · exact h
  · next i hi =>
    obtain ⟨hu, rfl⟩ := find_some hi
    split
    · exact h
    · next howner =>
      have hbut : LayeredBut i ((s.setFlags i flags).zRemove (s.windows i).id) :=
        (h.zRemove hu).setWindow { s.windows i with flags := flags }
          fun _ j hj hju hid => hj (h.ids j i hju hu hid)
      have hself : ((s.setFlags i flags).zRemove (s.windows i).id).windows i =
          { s.windows i with flags := flags } := s.setWindow_windows_self i _
      have hclear : Clear ((s.setFlags i flags).zRemove (s.windows i).id) i flags := by
        intro hp j hj
        rw [zRemove_windows, Server.setFlags, s.setWindow_windows_ne _ hj]
        exact hc i hi (not_not.mp howner) hp j hj
      have hins := hbut.zInsert (by rw [hself]; exact hu) (by rw [hself]; exact hclear)
      rw [hself] at hins
      exact Same.layered (s := ((s.setFlags i flags).zRemove (s.windows i).id).zInsert (s.windows i).id flags)
        (Same.of_windows rfl rfl rfl) hins

theorem wmActivate (h : Layered s) (id : UInt32)
    (hc : ∀ i, s.find id = some i → Clear s i (s.windows i).flags) : Layered (s.wmActivate id).1 := by
  unfold Server.wmActivate
  split
  · exact h
  · next i hi =>
    have hsame := Same.setState s i .normal
    refine (Same.setFocus _ _).layered ((hsame.layered h).raiseWindow ?_ ?_)
    · rw [hsame.used]
      exact (find_some hi).1
    · intro hp j hj hju
      rw [hsame.flags] at hp ⊢
      rw [hsame.used] at hju
      exact hc i hi hp j hj hju

theorem refocus (s : Server) : Same s s.refocus := by
  unfold Server.refocus
  dsimp only
  split
  · exact Same.setFocus s _
  · exact Same.refl s

theorem wmDestroyWindow (h : Layered s) (owner : Option ℕ) (id : UInt32) :
    Layered (s.wmDestroyWindow owner id).1 := by
  unfold Server.wmDestroyWindow
  split
  · exact h
  · next i hi =>
    obtain ⟨hu, rfl⟩ := find_some hi
    dsimp only
    split
    · exact h
    · have hbut : LayeredBut i ((s.damageWindow i).zRemove (s.windows i).id) :=
        ((Same.damageWindow s i).layered h).zRemove hu
      have hgone : Layered (((s.damageWindow i).zRemove (s.windows i).id).setWindow i
          { s.windows i with used := false }) := by
        refine (hbut.setWindow { s.windows i with used := false } (fun hf => by simp at hf)).layered ?_
        simp [Server.setWindow]
      split
      · exact (refocus _).layered ((Same.focusOn _ 0).layered hgone)
      · exact hgone

theorem wmCloseProcessWindows (h : Layered s) (owner : ℕ) : Layered (s.wmCloseProcessWindows owner) := by
  unfold Server.wmCloseProcessWindows
  generalize List.finRange 32 = slots
  induction slots generalizing s with
  | nil => exact h
  | cons i rest ih =>
    rw [List.foldl_cons]
    apply ih
    split
    · exact h.wmDestroyWindow _ _
    · exact h

theorem wmCreateWindow (h : Layered s) (screen : Screen) (owner : ℕ) (width height : Int32)
    (title : List UInt8) (flags : UInt32) (granted : Bool)
    (hc : Created screen s width height granted → (∀ j, (s.windows j).used → (s.windows j).id ≠ s.nextId) ∧
      (Plain flags → ∀ j, (s.windows j).used → ¬Torn (s.windows j).flags)) :
    Layered (s.wmCreateWindow screen owner width height title flags granted).1 := by
  unfold Server.wmCreateWindow
  split
  · exact h
  · next hpos =>
    split
    · exact h
    · next hfit =>
      split
      · exact h
      · next slot hslot =>
        have hu : (s.windows slot).used = false := by simpa using List.find?_some hslot
        have hsame : Same s (s.countWindow flags) := Same.of_windows rfl rfl rfl
        have hbut : LayeredBut slot (s.countWindow flags) := (h.but hu).of_same hsame
        dsimp only
        split
        · exact (hbut.setWindow _ (fun hf => by simp at hf)).layered (by simp)
        · next hgranted =>
          obtain ⟨hid, hc⟩ := hc ⟨hpos, hfit, by simpa using hgranted, slot, hu⟩
          generalize s.newPosition screen flags width height = position
          refine (Same.damageWindow _ slot).layered ?_
          have hins := (hbut.setWindow
            { id := s.nextId, used := true, owner := owner, flags := flags, title := title.take 47,
              x := position.1, y := position.2, width := width, height := height }
            fun _ j _ hju => hid j hju).zInsert (by simp) (by
              intro hp j hj hju
              rw [Server.setWindow_windows_self] at hp
              rw [Server.setWindow_windows_ne _ _ hj] at hju ⊢
              exact hc hp j hju)
          rw [Server.setWindow_windows_self] at hins
          split
          · exact hins
          · exact (Same.setFocus _ _).layered hins

/-- The window under a point is the one its id stands for. -/
theorem windowAt_found {s : Server} {x y : Int32} {i : WindowSlot} {hit : Bool}
    (h : s.windowAt x y = some (i, hit)) : s.find (s.windows i).id = some i := by
  obtain ⟨k, -, hk⟩ := List.exists_of_findSome?_eq_some h
  revert hk
  split
  · simp
  · next j hj =>
    dsimp only
    split
    · simp
    · split
      · simp
      · intro hij
        obtain ⟨rfl, -⟩ := Prod.mk.inj (Option.some.inj hij)
        rw [(find_some hj).2]
        exact hj

theorem handleMouseDown (h : Layered s) (x y button : Int32)
    (hc : ∀ i hit, s.windowAt x y = some (i, hit) → Clear s i (s.windows i).flags) :
    Layered (s.handleMouseDown x y button) := by
  unfold Server.handleMouseDown
  split
  · exact (Same.setFocus s 0).layered h
  · next i hit hat =>
    have hraised : Layered (if has (s.windows i).flags guiBottom = true then s
        else (s.setFocus (s.windows i).id).raiseWindow i) := by
      split
      · exact h
      · have hsame := Same.setFocus s (s.windows i).id
        refine (hsame.layered h).raiseWindow ?_ ?_
        · rw [hsame.used]
          exact (find_some (windowAt_found hat)).1
        · intro hp j hj hju
          rw [hsame.flags] at hp ⊢
          rw [hsame.used] at hju
          exact hc i hit hat hp j hj hju
    dsimp only
    generalize (if has (s.windows i).flags guiBottom = true then s
      else (s.setFocus (s.windows i).id).raiseWindow i) = t at hraised
    split
    · split
      · exact (Same.queueEvent t i _).layered hraised
      · split
        · exact (Same.wmMinimize t _).layered hraised
        · exact Same.layered (s := t) (Same.of_windows rfl rfl rfl) hraised
    · split
      · exact Same.layered (s := t) (Same.of_windows rfl rfl rfl) hraised
      · exact (Same.queueEvent t i _).layered hraised

end Layered

/-- A call whose insertion, if it makes one, is of a fresh id and not held back by a torn window. -/
def Orderly (screen : Screen) (s : Server) : Call → Prop
  | .create _ width height _ flags granted => Created screen s width height granted →
      (∀ j, (s.windows j).used → (s.windows j).id ≠ s.nextId) ∧
      (Plain flags → ∀ j, (s.windows j).used → ¬Torn (s.windows j).flags)
  | .activate id => ∀ i, s.find id = some i → Clear s i (s.windows i).flags
  | .setFlags owner id flags => ∀ i, s.find id = some i → (s.windows i).owner = owner → Clear s i flags
  | .mouseDown x y _ => ∀ i hit, s.windowAt x y = some (i, hit) → Clear s i (s.windows i).flags
  | _ => True

theorem Layered.run {s : Server} (h : Layered s) (screen : Screen) (c : Call) (hc : Orderly screen s c) :
    Layered (s.run screen c) := by
  have hcursor : ∀ x y, Same s { s with cursorX := x, cursorY := y } := fun x y => Same.of_windows rfl rfl rfl
  cases c with
  | create owner width height title flags granted =>
    exact h.wmCreateWindow screen owner width height title flags granted hc
  | destroy owner id => exact h.wmDestroyWindow owner id
  | closeProcess owner => exact h.wmCloseProcessWindows owner
  | invalidate owner id corner size =>
    refine Same.layered (s := s) ?_ h
    simp only [Server.run, Server.wmInvalidate]
    split
    · exact Same.refl s
    · split
      · exact Same.refl s
      · split <;> exact Same.of_windows rfl rfl rfl
  | poll owner id =>
    refine Same.layered (s := s) ?_ h
    simp only [Server.run, Server.wmPollEvent]
    split
    · exact Same.refl s
    · split
      · exact Same.refl s
      · split
        · exact Same.refl s
        · exact Same.setWindow s _ _ rfl rfl rfl
  | setTitle owner id title =>
    refine Same.layered (s := s) ?_ h
    simp only [Server.run, Server.wmSetTitle]
    split
    · exact Same.refl s
    · split
      · exact Same.refl s
      · next i _ _ =>
        exact (Same.setWindow s i { s.windows i with title := title.take 47 } rfl rfl rfl).trans
          (Same.damageWindow _ i)
  | move owner id x y =>
    refine Same.layered (s := s) ?_ h
    simp only [Server.run, Server.wmMoveWindow]
    split
    · exact Same.refl s
    · split
      · exact Same.refl s
      · exact (Same.damageWindow s _).trans ((Same.moveTo _ _ _ _).trans (Same.damageWindow _ _))
  | resize owner id width height granted => exact (Same.wmResizeWindow screen s owner id width height granted).layered h
  | activate id => exact h.wmActivate id hc
  | minimize id => exact (Same.wmMinimize s id).layered h
  | setFlags owner id flags => exact h.wmSetFlags owner id flags hc
  | mouseDown x y button => exact ((hcursor x y).layered h).handleMouseDown x y button hc
  | mouseUp x y button => exact ((hcursor x y).trans (Same.handleMouseUp _ x y button)).layered h
  | mouseMove x y buttons granted =>
    exact ((hcursor x y).trans (Same.handleMouseMove screen _ x y buttons granted)).layered h
  | wheel x y wheel =>
    refine Same.layered (s := s) ?_ h
    simp only [Server.run, Server.handleWheel]
    split
    · exact Same.queueEvent s _ _
    · exact Same.refl s
  | key key =>
    refine Same.layered (s := s) ?_ h
    simp only [Server.run, Server.handleKey]
    split
    · exact Same.queueEvent s _ _
    · exact Same.refl s
  | trackCursor =>
    refine Same.layered (s := s) ?_ h
    simp only [Server.run, Server.trackCursor]
    split
    · exact Same.of_windows rfl rfl rfl
    · exact Same.refl s
  | draw i pixels => exact (Same.setWindow s i { s.windows i with pixels := pixels } rfl rfl rfl).layered h

theorem wmInit_layered (screen : Screen) : Layered (wmInit screen) where
  ids i _ hi := by simp [wmInit] at hi
  nodup := List.nodup_nil
  mem_iff id := by simp [stack, entries, wmInit]
  ordered := List.Pairwise.nil

/-- Two members of a list come in one order or the other. -/
theorem sublist_or {α : Type*} {l : List α} {a b : α} (ha : a ∈ l) (hb : b ∈ l) (hab : a ≠ b) :
    [a, b].Sublist l ∨ [b, a].Sublist l := by
  induction l with
  | nil => simp at ha
  | cons c l ih =>
    rcases List.mem_cons.mp ha with rfl | hal
    · have hbl : b ∈ l := (List.mem_cons.mp hb).resolve_left hab.symm
      exact .inl (List.cons_sublist_cons.mpr (List.singleton_sublist.mpr hbl))
    · rcases List.mem_cons.mp hb with rfl | hbl
      · exact .inr (List.cons_sublist_cons.mpr (List.singleton_sublist.mpr hal))
      · exact (ih hal hbl).imp (fun h => h.cons c) (fun h => h.cons c)

/-- The stacking invariant: every window in use once and nothing else, the wallpaper band behind,
the taskbar band in front. -/
structure Stacked (s : Server) : Prop where
  ids : DistinctIds s
  nodup : (stack s).Nodup
  mem_iff : ∀ id, id ∈ stack s ↔ ∃ i, (s.windows i).used ∧ (s.windows i).id = id
  bottom : ∀ i j, (s.windows i).used → (s.windows j).used → has (s.windows i).flags guiBottom →
    ¬has (s.windows j).flags guiBottom → [(s.windows i).id, (s.windows j).id].Sublist (stack s)
  top : ∀ i j, (s.windows i).used → (s.windows j).used → ¬has (s.windows i).flags guiTop →
    has (s.windows j).flags guiTop → ¬has (s.windows j).flags guiBottom →
    [(s.windows i).id, (s.windows j).id].Sublist (stack s)

theorem Layered.sublist_of_band {s : Server} (h : Layered s) {i j : WindowSlot} (hi : (s.windows i).used)
    (hj : (s.windows j).used) (hb : band (s.windows i).flags < band (s.windows j).flags) :
    [(s.windows i).id, (s.windows j).id].Sublist (stack s) := by
  have hne : (s.windows i).id ≠ (s.windows j).id := by
    intro hid
    rw [h.ids i j hi hj hid] at hb
    exact Nat.lt_irrefl _ hb
  refine (sublist_or ((h.mem_iff _).mpr ⟨i, hi, rfl⟩) ((h.mem_iff _).mpr ⟨j, hj, rfl⟩) hne).resolve_right ?_
  intro hsub
  have hord := List.rel_of_pairwise_cons (h.ordered.sublist hsub) (List.mem_singleton_self _)
  exact Nat.not_lt.mpr (hord j i hj hi rfl rfl) hb

theorem Layered.stacked {s : Server} (h : Layered s) : Stacked s where
  ids := h.ids
  nodup := h.nodup
  mem_iff := h.mem_iff
  bottom i j hi hj hb hnb := by
    refine h.sublist_of_band hi hj ?_
    have hi₀ : band (s.windows i).flags = 0 := by simp [band, hb]
    rw [hi₀, band, if_neg hnb]
    split <;> simp
  top i j hi hj hnt ht hnb := by
    refine h.sublist_of_band hi hj ?_
    have hj₂ : band (s.windows j).flags = 2 := by simp [band, hnb, ht]
    rw [hj₂, band, if_neg hnt]
    split <;> simp

/-- In every run of calls that are orderly where they are made, the stack keeps its bands. -/
theorem stacking_order (screen : Screen) {s : Server}
    (h : Reachable (· = wmInit screen) (fun s t => ∃ c, Orderly screen s c ∧ t = s.run screen c) s) : Stacked s := by
  refine Layered.stacked (h.invariant ?_ ?_)
  · rintro s rfl
    exact wmInit_layered screen
  · rintro s t hs ⟨c, hc, rfl⟩
    exact hs.run screen c hc

/-- A 1024 by 768 mode. -/
def xga : Screen := ⟨1024, 768, by decide, by decide, by decide, by decide⟩

def wallpaperAndTaskbar : UInt32 := guiBottom ||| guiTop

theorem stacking_order_sample :
    Stacked (((wmInit xga).run xga (.create 1 200 100 [] guiTop true)).run xga (.create 2 200 100 [] 0 true)) := by
  refine stacking_order xga (.next (.next (.start rfl) ⟨.create 1 200 100 [] guiTop true, ?_, rfl⟩)
    ⟨.create 2 200 100 [] 0 true, ?_, rfl⟩)
  · exact fun _ => ⟨by decide, by unfold Plain Torn; decide⟩
  · exact fun _ => ⟨by decide, by unfold Plain Torn; decide⟩

/-- A window with both bits goes to the back; the next plain window is put behind it. -/
theorem stacking_order_torn : ¬∀ s, Reachable (· = wmInit xga) (fun s t => ∃ c, t = s.run xga c) s → Stacked s := by
  intro h
  have hs := h (((wmInit xga).run xga (.create 1 200 100 [] wallpaperAndTaskbar true)).run xga
    (.create 2 200 100 [] 0 true)) (.next (.next (.start rfl) ⟨_, rfl⟩) ⟨_, rfl⟩)
  have := hs.bottom 0 1 (by decide) (by decide) (by decide) (by decide)
  revert this
  decide

end SifarOS.WindowStacking
