import SifarOS.MountedTree

/-! # Canonical paths

`vfs_abspath` returns a slash and a name for every step from the root, with one slash more in front
when it began in the directory `/`. Such a string stands for the list of its names. -/
namespace SifarOS.Vfs
open Forest

/-- Names that `vfs_abspath` leaves in a path. -/
def Clean (segs : List Name) : Prop := ∀ s ∈ segs, s ≠ [] ∧ slash ∉ s ∧ s ≠ [dot] ∧ s ≠ [dot, dot]

/-- A slash before every name. -/
def render (segs : List Name) : List UInt8 := segs.flatMap (slash :: ·)

/-- The strings `vfs_abspath` works on. -/
def Stack (s : List UInt8) (segs : List Name) : Prop := Clean segs ∧ (s = render segs ∨ s = slash :: render segs)

/-- The working directory of a caller: none, or what `vfs_abspath` has returned. -/
def CwdOk (cwd : Option (List UInt8)) : Prop := ∀ dir, cwd = some dir → ∃ segs, Stack dir segs

variable {s : List UInt8} {segs : List Name} {name seg : Name}

theorem splitLast_length {before : List UInt8} (h : splitLast s = some (before, name)) : before.length ≤ s.length := by
  unfold splitLast at h
  split at h
  · rw [← (Prod.mk.inj (Option.some.inj h)).1, List.length_take]
    omega
  · cases h

theorem stack_nil : Stack [] [] := ⟨fun _ hx => (List.not_mem_nil hx).elim, Or.inl rfl⟩

theorem render_append (segs segs' : List Name) : render (segs ++ segs') = render segs ++ render segs' := by
  unfold render
  exact List.flatMap_append

theorem render_concat (segs : List Name) (name : Name) : render (segs ++ [name]) = render segs ++ slash :: name := by
  rw [render_append]
  unfold render
  simp

theorem segmentsFrom_append (h : slash ∉ s) (rest : List UInt8) (name : Name) :
    segmentsFrom (s ++ rest) name = segmentsFrom rest (name ++ s) := by
  induction s generalizing name with
  | nil => rw [List.nil_append, List.append_nil]
  | cons c s ih =>
    simp only [List.mem_cons, not_or] at h
    rw [List.cons_append, segmentsFrom, if_neg (Ne.symm h.1), ih h.2, List.append_assoc]
    rfl

theorem segmentsFrom_render (h : Clean segs) (name : Name) :
    segmentsFrom (render segs) name = if name = [] then segs else name :: segs := by
  induction segs generalizing name with
  | nil =>
    unfold render segmentsFrom
    rfl
  | cons seg rest ih =>
    obtain ⟨hne, hslash, -⟩ := h seg List.mem_cons_self
    have hrest : Clean rest := fun s hs => h s (List.mem_cons_of_mem _ hs)
    have htail : segmentsFrom (seg ++ render rest) [] = seg :: rest := by
      rw [segmentsFrom_append hslash, List.nil_append, ih hrest, if_neg hne]
    have hr : render (seg :: rest) = slash :: (seg ++ render rest) := by
      unfold render
      simp
    rw [hr, segmentsFrom, if_pos rfl, htail]

theorem Stack.segments (h : Stack s segs) : segments s = segs := by
  unfold Vfs.segments
  rcases h.2 with rfl | rfl
  · rw [segmentsFrom_render h.1, if_pos rfl]
  · rw [segmentsFrom, if_pos rfl, if_pos rfl, segmentsFrom_render h.1, if_pos rfl]

/-- The names of a path are not empty and have no slash. -/
theorem segmentsFrom_clean {name seg : Name} (hname : slash ∉ name) (h : seg ∈ segmentsFrom s name) :
    seg ≠ [] ∧ slash ∉ seg := by
  induction s generalizing name with
  | nil =>
    unfold segmentsFrom at h
    split at h
    · cases h
    · rename_i hne
      rw [List.mem_singleton] at h
      exact h ▸ ⟨hne, hname⟩
  | cons c rest ih =>
    unfold segmentsFrom at h
    split at h
    · split at h
      · exact ih List.not_mem_nil h
      · rename_i hne
        rcases List.mem_cons.mp h with rfl | h
        · exact ⟨hne, hname⟩
        · exact ih List.not_mem_nil h
    · rename_i hc
      refine ih ?_ h
      simp only [List.mem_append, List.mem_singleton, not_or]
      exact ⟨hname, Ne.symm hc⟩

theorem splitLast_slash (before : List UInt8) (h : slash ∉ name) :
    splitLast (before ++ slash :: name) = some (before, name) := by
  have htake : ((before ++ slash :: name).reverse.takeWhile (· ≠ slash)) = name.reverse := by
    rw [List.reverse_append, List.reverse_cons, List.append_assoc, List.takeWhile_append_of_pos]
    · simp
    · intro c hc
      exact decide_eq_true (fun he => h (he ▸ List.mem_reverse.mp hc))
  unfold splitLast
  rw [if_pos (by simp), htake]
  simp only [List.reverse_reverse]
  have hlen : (before ++ slash :: name).length - name.length - 1 = before.length := by
    simp only [List.length_append, List.length_cons]
    omega
  rw [hlen, List.take_left']
  rfl

theorem Clean.append (h : Clean segs) (hs : seg ≠ [] ∧ slash ∉ seg) (hd : seg ≠ [dot]) (hdd : seg ≠ [dot, dot]) :
    Clean (segs ++ [seg]) := by
  intro s hs'
  rcases List.mem_append.mp hs' with hs' | hs'
  · exact h s hs'
  · rw [List.mem_singleton] at hs'
    exact hs' ▸ ⟨hs.1, hs.2, hd, hdd⟩

theorem Clean.dropLast (h : Clean segs) : Clean segs.dropLast := fun s hs => h s ((List.dropLast_sublist _).subset hs)

/-- A string of names splits at its last name. -/
theorem Stack.splitLast (h : Stack s (segs ++ [name])) : ∃ before, Vfs.splitLast s = some (before, name) ∧ Stack before segs := by
  have hname := h.1 name (by simp)
  have hsegs : Clean segs := fun x hx => h.1 x (List.mem_append_left _ hx)
  rcases h.2 with rfl | rfl
  · rw [render_concat]
    exact ⟨render segs, splitLast_slash _ hname.2.1, hsegs, Or.inl rfl⟩
  · rw [render_concat, ← List.cons_append]
    exact ⟨slash :: render segs, splitLast_slash _ hname.2.1, hsegs, Or.inr rfl⟩

theorem pushSegment_stack (h : Stack s segs) (hs : seg ≠ [] ∧ slash ∉ seg) {s' : List UInt8}
    (hp : pushSegment s seg = some s') : ∃ segs', Stack s' segs' := by
  unfold pushSegment at hp
  split at hp
  · exact ⟨segs, Option.some.inj hp ▸ h⟩
  rename_i hdot
  split at hp
  · rcases List.eq_nil_or_concat segs with rfl | ⟨segs', last, rfl⟩
    · rcases h.2 with rfl | rfl
      · obtain rfl : render [] = s' := Option.some.inj hp
        exact ⟨[], h⟩
      · have hnil := splitLast_slash [] List.not_mem_nil
        have hslash : slash :: render [] = [] ++ slash :: [] := rfl
        rw [hslash, hnil] at hp
        obtain rfl : [] = s' := Option.some.inj hp
        exact ⟨[], stack_nil⟩
    · rw [List.concat_eq_append] at h
      obtain ⟨before, hsplit, hb⟩ := h.splitLast
      rw [hsplit] at hp
      exact ⟨segs', Option.some.inj hp ▸ hb⟩
  rename_i hdd
  split at hp
  · cases hp
  · obtain rfl := Option.some.inj hp
    refine ⟨segs ++ [seg], h.1.append hs hdot hdd, ?_⟩
    rw [render_concat]
    rcases h.2 with rfl | rfl
    · exact Or.inl rfl
    · exact Or.inr rfl

theorem foldlM_pushSegment_stack {path : List Name} (hpath : ∀ seg ∈ path, seg ≠ [] ∧ slash ∉ seg) (h : Stack s segs)
    {s' : List UInt8} (hp : path.foldlM pushSegment s = some s') : ∃ segs', Stack s' segs' := by
  induction path generalizing s segs with
  | nil =>
    rw [List.foldlM_nil] at hp
    exact ⟨segs, Option.some.inj hp ▸ h⟩
  | cons seg rest ih =>
    rw [List.foldlM_cons] at hp
    obtain ⟨mid, h₁, h₂⟩ := Option.bind_eq_some_iff.mp hp
    obtain ⟨segs', hmid⟩ := pushSegment_stack h (hpath seg List.mem_cons_self) h₁
    exact ih (fun x hx => hpath x (List.mem_cons_of_mem _ hx)) hmid h₂

/-- The last byte of such a string is no slash, unless it is the root's. -/
theorem Stack.getLast (h : Stack s segs) (hlen : 1 < s.length) : s.getLast? ≠ some slash := by
  rcases List.eq_nil_or_concat segs with rfl | ⟨segs', last, rfl⟩
  · rcases h.2 with rfl | rfl <;> exact absurd hlen (by decide)
  · rw [List.concat_eq_append] at h
    obtain ⟨hne, hslash, -⟩ := h.1 last (by simp)
    have htail : ∃ front, s = front ++ last := by
      rcases h.2 with rfl | rfl
      · exact ⟨render segs' ++ [slash], by rw [render_concat, List.append_assoc]; rfl⟩
      · exact ⟨slash :: (render segs' ++ [slash]), by rw [render_concat]; simp⟩
    obtain ⟨front, rfl⟩ := htail
    rw [List.getLast?_append_of_ne_nil _ hne, List.getLast?_eq_some_getLast hne]
    exact fun he => hslash (Option.some.inj he ▸ List.getLast_mem hne)

theorem startOf_stack {cwd : Option (List UInt8)} (h : CwdOk cwd) {p start : List UInt8} (hs : startOf cwd p = some start) :
    ∃ segs, Stack start segs := by
  unfold startOf at hs
  split at hs
  · exact ⟨[], Option.some.inj hs ▸ stack_nil⟩
  · rename_i dir
    obtain ⟨segs, hdir⟩ := h dir rfl
    split at hs
    · exact ⟨[], Option.some.inj hs ▸ stack_nil⟩
    split at hs
    · cases hs
    split at hs
    · rename_i hlast
      exact absurd hlast.2 (hdir.getLast hlast.1)
    · exact ⟨segs, Option.some.inj hs ▸ hdir⟩

/-- What `vfs_abspath` returns. -/
theorem abspath_stack {cwd : Option (List UInt8)} (h : CwdOk cwd) {p absolute : List UInt8} (ha : abspath cwd p = some absolute) :
    Stack absolute (segments absolute) ∧ absolute ≠ [] := by
  unfold abspath at ha
  obtain ⟨start, hs, ha⟩ := Option.bind_eq_some_iff.mp ha
  obtain ⟨stack, hf, ha⟩ := Option.map_eq_some_iff.mp ha
  obtain ⟨segs, hstart⟩ := startOf_stack h hs
  obtain ⟨segs', hstack⟩ := foldlM_pushSegment_stack
    (fun seg hseg => segmentsFrom_clean List.not_mem_nil hseg) hstart hf
  split at ha
  · subst ha
    exact ⟨⟨fun _ hx => (List.not_mem_nil hx).elim, Or.inr rfl⟩, by simp⟩
  · rename_i hne
    subst ha
    rw [hstack.segments]
    exact ⟨hstack, hne⟩

theorem pushSegment_length {s' : List UInt8} (hs : s.length < 192) (hp : pushSegment s seg = some s') : s'.length < 192 := by
  unfold pushSegment at hp
  split at hp
  · exact Option.some.inj hp ▸ hs
  split at hp
  · cases hsplit : Vfs.splitLast s with
    | none =>
      rw [hsplit] at hp
      exact Option.some.inj hp ▸ hs
    | some parts =>
      rw [hsplit] at hp
      obtain ⟨before, last⟩ := parts
      exact Nat.lt_of_le_of_lt (Option.some.inj hp ▸ splitLast_length hsplit) hs
  split at hp
  · cases hp
  · rw [← Option.some.inj hp, List.length_append, List.length_cons]
    omega

theorem foldlM_pushSegment_length {path : List Name} {s' : List UInt8} (hs : s.length < 192)
    (hp : path.foldlM pushSegment s = some s') : s'.length < 192 := by
  induction path generalizing s with
  | nil =>
    rw [List.foldlM_nil] at hp
    exact Option.some.inj hp ▸ hs
  | cons seg rest ih =>
    rw [List.foldlM_cons] at hp
    obtain ⟨mid, h₁, h₂⟩ := Option.bind_eq_some_iff.mp hp
    exact ih (pushSegment_length hs h₁) h₂

theorem abspath_length {cwd : Option (List UInt8)} {p absolute : List UInt8} (ha : abspath cwd p = some absolute) :
    absolute.length < 192 := by
  unfold abspath at ha
  obtain ⟨start, hs, ha⟩ := Option.bind_eq_some_iff.mp ha
  obtain ⟨stack, hf, ha⟩ := Option.map_eq_some_iff.mp ha
  have hstart : start.length < 192 := by
    unfold startOf at hs
    split at hs
    · exact Option.some.inj hs ▸ Nat.zero_lt_succ _
    split at hs
    · exact Option.some.inj hs ▸ Nat.zero_lt_succ _
    split at hs
    · cases hs
    split at hs
    · rw [← Option.some.inj hs, List.length_dropLast]
      omega
    · rw [← Option.some.inj hs]
      omega
  have hstack := foldlM_pushSegment_length hstart hf
  split at ha
  · exact ha ▸ by decide
  · exact ha ▸ hstack

/-! ## A canonical path is its own absolute path -/

theorem foldlM_pushSegment_clean (h : Clean segs) {front : List Name} (hlen : (render (front ++ segs)).length < 192) :
    segs.foldlM pushSegment (render front) = some (render (front ++ segs)) := by
  induction segs generalizing front with
  | nil => rw [List.append_nil, List.foldlM_nil]; rfl
  | cons seg rest ih =>
    obtain ⟨-, -, hdot, hdd⟩ := h seg List.mem_cons_self
    have hassoc : front ++ seg :: rest = (front ++ [seg]) ++ rest := by simp
    rw [hassoc] at hlen ⊢
    have hshort : ¬192 ≤ (render front).length + 1 + seg.length := by
      rw [render_append, render_concat, List.length_append, List.length_append, List.length_cons] at hlen
      omega
    rw [List.foldlM_cons]
    unfold pushSegment
    rw [if_neg hdot, if_neg hdd, if_neg hshort, ← render_concat]
    exact ih (fun x hx => h x (List.mem_cons_of_mem _ hx)) hlen

theorem Stack.length_render (h : Stack s segs) : (render segs).length ≤ s.length := by
  rcases h.2 with rfl | rfl
  · exact Nat.le_refl _
  · exact Nat.le_succ _

theorem abspath_none_stack (h : Stack s segs) (hlen : s.length < 192) :
    ∃ absolute, abspath none s = some absolute ∧ segments absolute = segs := by
  have hle := h.length_render
  unfold abspath startOf
  rw [Option.bind_some, h.segments]
  have hfold := foldlM_pushSegment_clean h.1 (by
    rw [List.nil_append]
    omega)
  rw [show render [] = [] from rfl] at hfold
  rw [hfold, List.nil_append, Option.map_some]
  split
  · rename_i hnil
    refine ⟨[slash], rfl, ?_⟩
    have hs : Stack (render segs) segs := ⟨h.1, Or.inl rfl⟩
    rw [← hs.segments, hnil]
    rfl
  · exact ⟨render segs, rfl, Stack.segments ⟨h.1, Or.inl rfl⟩⟩

/-- The path a string names. -/
def canon (cwd : Option (List UInt8)) (p : List UInt8) : Option (List Name) := (abspath cwd p).map segments

/-- Where `vfs_create` splits a path. -/
theorem abspath_split {cwd : Option (List UInt8)} (hcwd : CwdOk cwd) {p absolute : List UInt8} (ha : abspath cwd p = some absolute)
    (hroot : absolute ≠ [slash]) : ∃ front name before absolute', segments absolute = front ++ [name] ∧ Clean (front ++ [name]) ∧
      (render (front ++ [name])).length < 192 ∧ splitLast absolute = some (before, name) ∧
      abspath none (if before = [] then [slash] else before) = some absolute' ∧ segments absolute' = front := by
  obtain ⟨hstack, hne⟩ := abspath_stack hcwd ha
  have hlen := abspath_length ha
  rcases List.eq_nil_or_concat (segments absolute) with hnil | ⟨front, name, hlast⟩
  · rw [hnil] at hstack
    exact hstack.2.elim (fun he => absurd he hne) fun he => absurd he hroot
  rw [List.concat_eq_append] at hlast
  rw [hlast] at hstack
  obtain ⟨before, hsplit, hbefore⟩ := hstack.splitLast
  have hshort := splitLast_length hsplit
  have hle := hstack.length_render
  have hparent : Stack (if before = [] then [slash] else before) front := by
    split
    · next hnil =>
      subst hnil
      rcases hbefore.2 with he | he
      · exact ⟨hbefore.1, Or.inr (by rw [← he])⟩
      · cases he
    · exact hbefore
  obtain ⟨absolute', habs, hsegs⟩ := abspath_none_stack hparent (by
    split
    · decide
    · omega)
  exact ⟨front, name, before, absolute', hlast, hstack.1, by omega, hsplit, habs, hsegs⟩

/-- `vfs_create` looks for the parent at the path without its last name. -/
theorem CreateCall.canon {m : Mount} {cwd : Option (List UInt8)} {p : List UInt8} {parentPath : List Name} {parent : Attrs}
    {children : Forest} (h : CreateCall m cwd p parentPath parent children name) (hcwd : CwdOk cwd) :
    Vfs.canon cwd p = some (parentPath ++ [name]) := by
  obtain ⟨absolute, before, habs, hroot, hsplit, hlook⟩ := h.split
  obtain ⟨front, last, before', absolute', hsegs, -, -, hsplit', habs', hfront⟩ := abspath_split hcwd habs hroot
  obtain ⟨rfl, rfl⟩ := Prod.mk.inj (Option.some.inj (hsplit.symm.trans hsplit'))
  obtain ⟨-, absolute₂, habs₂, hpath⟩ := lookup_follow hlook
  obtain rfl := Option.some.inj (habs'.symm.trans habs₂)
  rw [Vfs.canon, habs, Option.map_some, hsegs, hpath, hfront]

end SifarOS.Vfs
