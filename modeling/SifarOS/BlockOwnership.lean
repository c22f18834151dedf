import Mathlib.Data.List.Basic

/-! # Who owns which block

Slots hold block numbers, 0 for none. The blocks from `lo` to `total` belong to at most one slot
each, and the marks say which of them are taken; the blocks below `lo` are always taken. Taking a
block for an empty slot and giving one back keep this. -/
namespace SifarOS.BlockOwnership

variable {ι : Type*} {lo total b : ℕ} {used used' : ℕ → Bool} {slot slot' : ι → ℕ} {i₀ : ι}

structure Owns (lo total : ℕ) (used : ℕ → Bool) (slot : ι → ℕ) : Prop where
  range : ∀ i, slot i ≠ 0 → lo ≤ slot i ∧ slot i < total
  inj : ∀ i j, slot i = slot j → slot i ≠ 0 → i = j
  used_iff : ∀ b, b < total → (used b = true ↔ b < lo ∨ ∃ i, slot i = b)

/-- The number of blocks that are not taken. -/
def clearCount (total : ℕ) (used : ℕ → Bool) : ℕ := ((List.range total).filter (fun b => !used b)).length

theorem Owns.slot_used (h : Owns lo total used slot) {i : ι} (hi : slot i ≠ 0) : used (slot i) = true :=
  (h.used_iff _ (h.range i hi).2).mpr (Or.inr ⟨i, rfl⟩)

theorem Owns.slot_ne (h : Owns lo total used slot) (hb : b < total) (hu : used b = false) (i : ι) :
    slot i ≠ b := by
  intro he
  have ht : used b = true := (h.used_iff b hb).mpr (Or.inr ⟨i, he⟩)
  rw [hu] at ht
  cases ht

/-- A block that nobody has goes to an empty slot. -/
theorem Owns.take (h : Owns lo total used slot) (i₀ : ι) (hlo : 0 < lo) (hz : slot i₀ = 0) (hb : b < total)
    (hu : used b = false) (hs₀ : slot' i₀ = b) (hs : ∀ i, i ≠ i₀ → slot' i = slot i)
    (hused : ∀ c, c < total → (used' c = true ↔ c = b ∨ used c = true)) : Owns lo total used' slot' := by
  have hlob : lo ≤ b := by
    by_contra hlt
    have ht : used b = true := (h.used_iff b hb).mpr (Or.inl (Nat.lt_of_not_le hlt))
    rw [hu] at ht
    cases ht
  refine ⟨fun i hi => ?_, fun i j he hi => ?_, fun c hc => ?_⟩
  · by_cases h₀ : i = i₀
    · subst h₀
      rw [hs₀]
      exact ⟨hlob, hb⟩
    · rw [hs i h₀] at hi ⊢
      exact h.range i hi
  · by_cases h₀ : i = i₀ <;> by_cases h₁ : j = i₀
    · exact h₀.trans h₁.symm
    · subst h₀
      rw [hs₀, hs j h₁] at he
      exact absurd he.symm (h.slot_ne hb hu j)
    · subst h₁
      rw [hs i h₀, hs₀] at he
      exact absurd he (h.slot_ne hb hu i)
    · rw [hs i h₀] at he hi
      rw [hs j h₁] at he
      exact h.inj i j he hi
  · rw [hused c hc, h.used_iff c hc]
    constructor
    · rintro (rfl | hlt | ⟨i, rfl⟩)
      · exact Or.inr ⟨i₀, hs₀⟩
      · exact Or.inl hlt
      · by_cases h₀ : i = i₀
        · subst h₀
          exact Or.inl (hz ▸ hlo)
        · exact Or.inr ⟨i, hs i h₀⟩
    · rintro (hlt | ⟨i, rfl⟩)
      · exact Or.inr (Or.inl hlt)
      · by_cases h₀ : i = i₀
        · subst h₀
          exact Or.inl hs₀
        · exact Or.inr (Or.inr ⟨i, (hs i h₀).symm⟩)

/-- The block of a slot is given back. -/
theorem Owns.give (h : Owns lo total used slot) (i₀ : ι) (hlo : 0 < lo) (hb : slot i₀ = b) (hb₀ : b ≠ 0) (hs₀ : slot' i₀ = 0)
    (hs : ∀ i, i ≠ i₀ → slot' i = slot i)
    (hused : ∀ c, c < total → (used' c = true ↔ c ≠ b ∧ used c = true)) : Owns lo total used' slot' := by
  have hrange := h.range i₀ (hb ▸ hb₀)
  rw [hb] at hrange
  refine ⟨fun i hi => ?_, fun i j he hi => ?_, fun c hc => ?_⟩
  · by_cases h₀ : i = i₀
    · subst h₀
      exact absurd hs₀ hi
    · rw [hs i h₀] at hi ⊢
      exact h.range i hi
  · by_cases h₀ : i = i₀
    · subst h₀
      exact absurd hs₀ hi
    · by_cases h₁ : j = i₀
      · subst h₁
        exact absurd (he.trans hs₀) hi
      · rw [hs i h₀] at he hi
        rw [hs j h₁] at he
        exact h.inj i j he hi
  · rw [hused c hc, h.used_iff c hc]
    constructor
    · rintro ⟨hne, hlt | ⟨i, rfl⟩⟩
      · exact Or.inl hlt
      · by_cases h₀ : i = i₀
        · subst h₀
          exact absurd hb hne
        · exact Or.inr ⟨i, hs i h₀⟩
    · rintro (hlt | ⟨i, rfl⟩)
      · exact ⟨by omega, Or.inl hlt⟩
      · by_cases h₀ : i = i₀
        · subst h₀
          rw [hs₀]
          exact ⟨hb₀.symm, Or.inl hlo⟩
        · refine ⟨fun he => h₀ ?_, Or.inr ⟨i, (hs i h₀).symm⟩⟩
          rw [hs i h₀] at he
          exact h.inj i i₀ (he.trans hb.symm) (he ▸ hb₀)

/-- The same blocks under the same marks. -/
theorem Owns.congr (h : Owns lo total used slot) (hs : ∀ i, slot' i = slot i)
    (hused : ∀ c, c < total → used' c = used c) : Owns lo total used' slot' := by
  obtain rfl : slot' = slot := funext hs
  exact ⟨h.range, h.inj, fun c hc => by rw [hused c hc]; exact h.used_iff c hc⟩

/-- The same blocks in other slots. -/
theorem Owns.relabel {κ : Type*} {slot' : κ → ℕ} (h : Owns lo total used slot) (hlo : 0 < lo) (g : κ → ι)
    (hg : ∀ i, slot' i ≠ 0 → slot (g i) = slot' i)
    (hinj : ∀ i j, slot' i ≠ 0 → slot' j ≠ 0 → g i = g j → i = j)
    (hsurj : ∀ j, slot j ≠ 0 → ∃ i, slot' i = slot j) : Owns lo total used slot' := by
  refine ⟨fun i hi => ?_, fun i j he hi => ?_, fun b hb => ?_⟩
  · have := h.range (g i)
    rw [hg i hi] at this
    exact this hi
  · have hj : slot' j ≠ 0 := he ▸ hi
    refine hinj i j hi hj (h.inj _ _ ?_ ?_)
    · rw [hg i hi, hg j hj, he]
    · rwa [hg i hi]
  · rw [h.used_iff b hb]
    refine or_congr_right' (fun hnot => ⟨?_, ?_⟩)
    · rintro ⟨j, rfl⟩
      exact hsurj j (by omega)
    · rintro ⟨i, rfl⟩
      exact ⟨g i, hg i (by omega)⟩

theorem clearCount_succ (n : ℕ) (used : ℕ → Bool) :
    clearCount (n + 1) used = clearCount n used + if used n then 0 else 1 := by
  unfold clearCount
  rw [List.range_succ, List.filter_append, List.length_append]
  cases h : used n <;> simp [h]

theorem clearCount_congr (h : ∀ c, c < total → used' c = used c) : clearCount total used' = clearCount total used := by
  induction total with
  | zero => rfl
  | succ n ih => rw [clearCount_succ, clearCount_succ, ih (fun c hc => h c (by omega)), h n (by omega)]

/-- One mark more, one block less. -/
theorem clearCount_take (hb : b < total) (hu : used b = false)
    (hused : ∀ c, c < total → (used' c = true ↔ c = b ∨ used c = true)) :
    clearCount total used' + 1 = clearCount total used := by
  have hne : ∀ c, c < total → c ≠ b → used' c = used c := by
    intro c hc hcb
    have hiff : used' c = true ↔ used c = true := (hused c hc).trans (or_iff_right hcb)
    exact Bool.eq_iff_iff.mpr hiff
  induction total with
  | zero => omega
  | succ n ih =>
    rw [clearCount_succ, clearCount_succ]
    by_cases hbn : b = n
    · subst hbn
      have h₁ : used' b = true := (hused b (by omega)).mpr (Or.inl rfl)
      rw [clearCount_congr (fun c hc => hne c (by omega) (by omega)), hu, h₁]
      simp
    · rw [hne n (by omega) (by omega)]
      have := ih (by omega) (fun c hc => hused c (by omega)) (fun c hc => hne c (by omega))
      omega

theorem clearCount_eq_zero (h : ∀ b, b < total → used b = true) : clearCount total used = 0 := by
  unfold clearCount
  rw [List.length_eq_zero_iff, List.filter_eq_nil_iff]
  intro b hb
  simp [h b (List.mem_range.mp hb)]

theorem clearCount_pos (hb : b < total) (hu : used b = false) : 0 < clearCount total used := by
  unfold clearCount
  apply List.length_pos_of_mem (a := b)
  rw [List.mem_filter, List.mem_range, hu]
  exact ⟨hb, rfl⟩

theorem clearCount_lt (hb : b < total) (hu : used b = true) : clearCount total used < total := by
  unfold clearCount
  have hlt : ((List.range total).filter fun b => !used b).length < (List.range total).length := by
    rw [List.length_filter_lt_length_iff_exists]
    exact ⟨b, List.mem_range.mpr hb, by simp [hu]⟩
  rwa [List.length_range] at hlt

/-- The number of blocks that were taken before and are not taken now. -/
def lostCount (total : ℕ) (used used' : ℕ → Bool) : ℕ := ((List.range total).filter (fun b => used b && !used' b)).length

theorem lostCount_succ (n : ℕ) (used used' : ℕ → Bool) :
    lostCount (n + 1) used used' = lostCount n used used' + if used n && !used' n then 1 else 0 := by
  unfold lostCount
  rw [List.range_succ, List.filter_append, List.length_append]
  cases h : used n && !used' n <;> simp [h]

/-- Where no block was taken, the count of free ones has grown by those given back. -/
theorem clearCount_lost (h : ∀ c, c < total → used' c = true → used c = true) :
    clearCount total used' = clearCount total used + lostCount total used used' := by
  induction total with
  | zero => rfl
  | succ n ih =>
    have hn := h n (Nat.lt_succ_self n)
    rw [clearCount_succ, clearCount_succ, lostCount_succ, ih fun c hc => h c (by omega)]
    cases h₁ : used n <;> cases h₂ : used' n <;> simp [h₁, h₂] at hn ⊢ <;> omega

end SifarOS.BlockOwnership
