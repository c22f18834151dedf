import SifarOS.VfsPaths

/-! # What `vfs_abspath` makes of a path

The loop keeps the names found so far in one string. It begins with the current directory as it is
written, and `/` is written with its slash: the first name is then put behind two slashes, unless a
`..` has taken the first one away. -/
namespace SifarOS.Vfs

/-- One name of a path, resolved against the names of a directory. -/
def resolveStep (names : List Name) (seg : Name) : List Name :=
  if seg = [dot] then names else if seg = [dot, dot] then names.dropLast else names ++ [seg]

/-- The names of a path, resolved from the left. -/
def resolve (names : List Name) (segs : List Name) : List Name := segs.foldl resolveStep names

/-- Some `..` of the path is met at the root. -/
def overshoots (names : List Name) : List Name → Bool
  | [] => false
  | seg :: rest => (seg == [dot, dot] && names.isEmpty) || overshoots (resolveStep names seg) rest

instance (names : List Name) : Decidable (Clean names) := inferInstanceAs (Decidable (∀ _ ∈ _, _))

/-- The string for a list of names: `/` for the root, else a slash before every name. -/
def written (names : List Name) : List UInt8 := if names = [] then [slash] else render names

/-- `/` alone, or names that are not empty, `.` or `..`, each after a single slash. -/
def Canonical (s : List UInt8) : Prop := ∃ names, Clean names ∧ s = written names

/-- `vfs_abspath` into a buffer of `size` bytes. -/
def vfsAbspath (cwd : Option (List UInt8)) (path : List UInt8) (size : ℕ) : Option (List UInt8) :=
  if size < 2 then none
  else (abspath cwd path).bind fun stack => if size ≤ stack.length then none else some stack

/-- The names that a path is resolved against. -/
def origin (names : List Name) (path : List UInt8) : List Name := if path.head? = some slash then [] else names

/-- What the result should be: canonical, the resolution of the path, and its own result. -/
structure Resolved (names : List Name) (path : List UInt8) (size : ℕ) (out : List UInt8) : Prop where
  canonical : Canonical out
  resolution : out = written (resolve (origin names path) (segments path))
  fixed : ∀ cwd, vfsAbspath cwd out size = some out

/-- The path is relative to `/`, leads to some name and has no `..` that is met at the root. -/
def Doubled (names : List Name) (path : List UInt8) : Prop :=
  names = [] ∧ path.head? ≠ some slash ∧ resolve [] (segments path) ≠ [] ∧ overshoots [] (segments path) = false

instance (names : List Name) (path : List UInt8) : Decidable (Doubled names path) :=
  inferInstanceAs (Decidable (_ ∧ _ ∧ _ ∧ _))

section Resolving
variable {s s' path out : List UInt8} {names segs : List Name} {seg : Name}

theorem Clean.resolveStep (h : Clean names) (hs : seg ≠ [] ∧ slash ∉ seg) : Clean (resolveStep names seg) := by
  unfold Vfs.resolveStep
  split
  · exact h
  · next hdot =>
    split
    · exact h.dropLast
    · next hdd => exact h.append hs hdot hdd

theorem Clean.resolve (h : Clean names) (hsegs : ∀ seg ∈ segs, seg ≠ [] ∧ slash ∉ seg) : Clean (resolve names segs) := by
  induction segs generalizing names with
  | nil => exact h
  | cons seg rest ih =>
    exact ih (h.resolveStep (hsegs seg List.mem_cons_self)) fun x hx => hsegs x (List.mem_cons_of_mem _ hx)

/-- A turn of the loop on a string with a slash before every name. -/
theorem pushSegment_render (h : Clean names) (hp : pushSegment (render names) seg = some s') :
    s' = render (resolveStep names seg) := by
  unfold pushSegment at hp
  unfold resolveStep
  split at hp
  · next hdot =>
    rw [if_pos hdot]
    exact (Option.some.inj hp).symm
  · next hdot =>
    rw [if_neg hdot]
    split at hp
    · next hdd =>
      rw [if_pos hdd]
      rcases List.eq_nil_or_concat names with rfl | ⟨front, last, rfl⟩
      · exact (Option.some.inj hp).symm
      · rw [List.concat_eq_append] at h hp ⊢
        rw [render_concat, splitLast_slash _ (h last (by simp)).2.1] at hp
        rw [List.dropLast_concat]
        exact (Option.some.inj hp).symm
    · next hdd =>
      rw [if_neg hdd, render_concat]
      split at hp
      · cases hp
      · exact (Option.some.inj hp).symm

/-- The same with one slash more in front: it stays until a `..` takes it away. -/
theorem pushSegment_extra (h : Clean names) (hp : pushSegment (slash :: render names) seg = some s') :
    s' = if seg = [dot, dot] ∧ names = [] then render [] else slash :: render (resolveStep names seg) := by
  unfold pushSegment at hp
  unfold resolveStep
  split at hp
  · next hdot =>
    have hne : ¬(seg = [dot, dot] ∧ names = []) := by
      rintro ⟨rfl, -⟩
      exact absurd hdot (by decide)
    rw [if_neg hne, if_pos hdot]
    exact (Option.some.inj hp).symm
  · next hdot =>
    rw [if_neg hdot]
    split at hp
    · next hdd =>
      rw [if_pos hdd]
      rcases List.eq_nil_or_concat names with rfl | ⟨front, last, rfl⟩
      · rw [if_pos ⟨hdd, rfl⟩]
        have hslash : slash :: render [] = [] ++ slash :: [] := rfl
        rw [hslash, splitLast_slash [] List.not_mem_nil] at hp
        exact (Option.some.inj hp).symm
      · rw [List.concat_eq_append] at h hp ⊢
        rw [render_concat, ← List.cons_append, splitLast_slash _ (h last (by simp)).2.1] at hp
        rw [if_neg (by simp), List.dropLast_concat]
        exact (Option.some.inj hp).symm
    · next hdd =>
      rw [if_neg fun hc => hdd hc.1, if_neg hdd, render_concat]
      split at hp
      · cases hp
      · exact (Option.some.inj hp).symm

theorem foldlM_render (h : Clean names) (hsegs : ∀ seg ∈ segs, seg ≠ [] ∧ slash ∉ seg)
    (hp : segs.foldlM pushSegment (render names) = some s') : s' = render (resolve names segs) := by
  induction segs generalizing names with
  | nil => exact (Option.some.inj hp).symm
  | cons seg rest ih =>
    rw [List.foldlM_cons] at hp
    obtain ⟨mid, hmid, hrest⟩ := Option.bind_eq_some_iff.mp hp
    rw [pushSegment_render h hmid] at hrest
    exact ih (h.resolveStep (hsegs seg List.mem_cons_self)) (fun x hx => hsegs x (List.mem_cons_of_mem _ hx)) hrest

theorem foldlM_extra (h : Clean names) (hsegs : ∀ seg ∈ segs, seg ≠ [] ∧ slash ∉ seg)
    (hp : segs.foldlM pushSegment (slash :: render names) = some s') :
    s' = if overshoots names segs then render (resolve names segs) else slash :: render (resolve names segs) := by
  induction segs generalizing names with
  | nil => exact (Option.some.inj hp).symm
  | cons seg rest ih =>
    have hrest : ∀ x ∈ rest, x ≠ [] ∧ slash ∉ x := fun x hx => hsegs x (List.mem_cons_of_mem _ hx)
    have hstep := h.resolveStep (hsegs seg List.mem_cons_self)
    rw [List.foldlM_cons] at hp
    obtain ⟨mid, hmid, hfold⟩ := Option.bind_eq_some_iff.mp hp
    have hcase := pushSegment_extra h hmid
    split at hcase
    · next hroot =>
      obtain ⟨rfl, rfl⟩ := hroot
      rw [hcase] at hfold
      rw [if_pos (by simp [overshoots])]
      have hdone := foldlM_render (fun _ hx => (List.not_mem_nil hx).elim) hrest hfold
      exact hdone
    · next hroot =>
      rw [hcase] at hfold
      have hflag : overshoots names (seg :: rest) = overshoots (resolveStep names seg) rest := by
        have hfalse : (seg == [dot, dot] && names.isEmpty) = false := by
          rw [← Bool.not_eq_true]
          simpa using hroot
        rw [overshoots, hfalse, Bool.false_or]
      rw [hflag]
      exact ih hstep hrest hfold

theorem segments_clean (path : List UInt8) : ∀ seg ∈ segments path, seg ≠ [] ∧ slash ∉ seg :=
  fun _ hseg => segmentsFrom_clean List.not_mem_nil hseg

theorem written_stack (h : Clean names) : Stack (written names) names := by
  unfold written
  split
  · next hnil =>
    subst hnil
    exact ⟨h, Or.inr rfl⟩
  · exact ⟨h, Or.inl rfl⟩

theorem written_ne_nil (names : List Name) : written names ≠ [] := by
  unfold written
  cases names with
  | nil => simp
  | cons name rest => simp [render]

/-- What the loop begins with. -/
theorem startOf_written (h : Clean names) {start : List UInt8} (hs : startOf (some (written names)) path = some start) :
    start = if path.head? = some slash then render [] else written names := by
  unfold startOf at hs
  dsimp only at hs
  split at hs
  · next habsolute =>
    rw [if_pos (habsolute.resolve_right (written_ne_nil names))]
    exact (Option.some.inj hs).symm
  · next hrelative =>
    rw [if_neg fun hc => hrelative (Or.inl hc)]
    split at hs
    · cases hs
    · split at hs
      · next hlast => exact absurd hlast.2 ((written_stack h).getLast hlast.1)
      · exact (Option.some.inj hs).symm

/-- The string the loop ends with. -/
theorem abspath_written (h : Clean names) (ha : abspath (some (written names)) path = some out) :
    out = if Doubled names path then slash :: written (resolve [] (segments path))
      else written (resolve (origin names path) (segments path)) := by
  obtain ⟨start, hstart, ha⟩ := Option.bind_eq_some_iff.mp ha
  obtain ⟨stack, hfold, hout⟩ := Option.map_eq_some_iff.mp ha
  have hsegs := segments_clean path
  have hempty : Clean [] := fun _ hx => (List.not_mem_nil hx).elim
  -- without the extra slash the result is the resolution
  have hplain : ∀ front, stack = render (resolve front (segments path)) → out = written (resolve front (segments path)) := by
    rintro front rfl
    rw [← hout]
    unfold written
    generalize resolve front (segments path) = result
    cases result with
    | nil => rfl
    | cons name rest => simp [render]
  have hs := startOf_written h hstart
  unfold origin
  by_cases habsolute : path.head? = some slash
  · rw [if_pos habsolute] at hs
    rw [if_neg fun hd : Doubled names path => hd.2.1 habsolute, if_pos habsolute]
    rw [hs] at hfold
    exact hplain [] (foldlM_render hempty hsegs hfold)
  rw [if_neg habsolute] at hs
  rw [if_neg habsolute]
  cases names with
  | cons name rest =>
    rw [if_neg fun hd : Doubled (name :: rest) path => by simp [Doubled] at hd]
    rw [hs, written, if_neg (by simp)] at hfold
    exact hplain _ (foldlM_render h hsegs hfold)
  | nil =>
    have hslash : written [] = slash :: render [] := rfl
    rw [hs, hslash] at hfold
    have hstack := foldlM_extra hempty hsegs hfold
    by_cases hover : overshoots [] (segments path) = true
    · rw [if_pos hover] at hstack
      rw [if_neg fun hd : Doubled [] path => by simp [Doubled, hover] at hd]
      exact hplain [] hstack
    · rw [if_neg hover] at hstack
      rw [hstack, if_neg (List.cons_ne_nil _ _)] at hout
      rw [← hout]
      by_cases hroot : resolve [] (segments path) = []
      · rw [if_neg fun hd : Doubled [] path => hd.2.2.1 hroot, hroot]
        rfl
      · rw [if_pos ⟨rfl, habsolute, hroot, by simpa using hover⟩, written, if_neg hroot]

/-- A canonical path is its own result, from any directory. -/
theorem abspath_fixed (h : Clean names) (hlen : (written names).length < 192) (cwd : Option (List UInt8)) :
    abspath cwd (written names) = some (written names) := by
  have hhead : (written names).head? = some slash := by
    unfold written
    cases names with
    | nil => rfl
    | cons name rest => simp [render]
  have hstart : startOf cwd (written names) = some [] := by
    unfold startOf
    cases cwd with
    | none => rfl
    | some dir => exact if_pos (Or.inl hhead)
  have hstack := written_stack h
  have hle := hstack.length_render
  have hroom : (render ([] ++ names)).length < 192 := by
    rw [List.nil_append]
    omega
  have hfold := foldlM_pushSegment_clean h hroom
  unfold abspath
  rw [hstart, Option.bind_some, hstack.segments]
  rw [show render [] = [] from rfl, List.nil_append] at hfold
  rw [hfold, Option.map_some]
  unfold written
  cases names with
  | nil => rfl
  | cons name rest => simp [render]

theorem vfsAbspath_some {cwd : Option (List UInt8)} {size : ℕ} :
    vfsAbspath cwd path size = some out ↔ 2 ≤ size ∧ out.length < size ∧ abspath cwd path = some out := by
  unfold vfsAbspath
  split
  · next hsmall =>
    refine iff_of_false (by simp) ?_
    rintro ⟨hsize, -⟩
    omega
  · next hsmall =>
    rw [Option.bind_eq_some_iff]
    constructor
    · rintro ⟨stack, habs, hout⟩
      split at hout
      · cases hout
      · next hfit =>
        obtain rfl := Option.some.inj hout
        exact ⟨by omega, by omega, habs⟩
    · rintro ⟨-, hfit, habs⟩
      exact ⟨out, habs, if_neg (by omega)⟩

end Resolving

/-- A call that returns 0 has resolved the path unless it has doubled the first slash. -/
theorem abspath_resolved {names : List Name} (h : Clean names) {path out : List UInt8} {size : ℕ}
    (ha : vfsAbspath (some (written names)) path size = some out) :
    Resolved names path size out ↔ ¬Doubled names path := by
  obtain ⟨hsize, hfit, habs⟩ := vfsAbspath_some.mp ha
  have hout := abspath_written h habs
  have hlength := abspath_length habs
  constructor
  · intro hr hd
    rw [if_pos hd] at hout
    have hsame := hr.resolution
    obtain ⟨rfl, hrelative, -⟩ := hd
    unfold origin at hsame
    rw [if_neg hrelative, hout] at hsame
    exact absurd (congrArg List.length hsame) (by simp)
  · intro hd
    rw [if_neg hd] at hout
    have hclean : Clean (resolve (origin names path) (segments path)) := by
      refine Clean.resolve ?_ (segments_clean path)
      unfold origin
      split
      · exact fun _ hx => (List.not_mem_nil hx).elim
      · exact h
    refine ⟨⟨_, hclean, hout⟩, hout, fun cwd => vfsAbspath_some.mpr ⟨hsize, hfit, ?_⟩⟩
    rw [hout] at hlength ⊢
    exact abspath_fixed hclean hlength cwd

/-- `a/../b` from `/tmp`. -/
theorem abspath_resolved_tmp : Resolved [[116, 109, 112]] [97, 47, 46, 46, 47, 98] 192 [47, 116, 109, 112, 47, 98] :=
  (abspath_resolved (show Clean [[116, 109, 112]] by decide) (by decide)).mpr (by decide)

/-- `a` from `/` is `//a`. -/
theorem abspath_doubles : ¬∀ (names : List Name) (path out : List UInt8) (size : ℕ), Clean names →
    vfsAbspath (some (written names)) path size = some out → Resolved names path size out := by
  intro h
  have hr := (h [] [97] [47, 47, 97] 192 (by decide) (by decide)).resolution
  exact absurd hr (by decide)

end SifarOS.Vfs
