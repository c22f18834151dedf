import Mathlib.Data.List.Induction
import Mathlib.Data.List.Nodup
import Mathlib.Logic.Function.Basic

/-! # Trees of named children

A function gives the children of every node with their names. A list of names leads from a node to
the one below it; in a tree no two of them lead from the root to the same node. -/
namespace SifarOS.NamedTree

variable {ι α : Type*} {K : ι → List (α × ι)} {root parent c n : ι} {p q : List α} {x : α}

section walk

variable [DecidableEq α]

/-- The child of `n` that has the name `x`. -/
def child (K : ι → List (α × ι)) (n : ι) (x : α) : Option ι := ((K n).find? (fun e => e.1 = x)).map Prod.snd

/-- The node to which a list of names leads. -/
def walk (K : ι → List (α × ι)) (n : ι) : List α → Option ι
  | [] => some n
  | x :: rest => (child K n x).bind (fun c => walk K c rest)

/-- No two lists of names lead from the root to one node. -/
def Unique (K : ι → List (α × ι)) (root : ι) : Prop := ∀ p q n, walk K root p = some n → walk K root q = some n → p = q

theorem walk_append (K : ι → List (α × ι)) (n : ι) (p q : List α) :
    walk K n (p ++ q) = (walk K n p).bind (fun m => walk K m q) := by
  induction p generalizing n with
  | nil => rfl
  | cons x rest ih =>
    simp only [List.cons_append, walk, Option.bind_assoc, ih]

theorem walk_concat (K : ι → List (α × ι)) (n : ι) (p : List α) (x : α) :
    walk K n (p ++ [x]) = (walk K n p).bind (fun m => child K m x) := by
  rw [walk_append]
  congr 1
  funext m
  simp [walk]

theorem child_eq_none : child K n x = none ↔ ∀ e ∈ K n, e.1 ≠ x := by
  unfold child
  simp

theorem mem_of_child (h : child K n x = some c) : (x, c) ∈ K n := by
  obtain ⟨e, he, rfl⟩ := Option.map_eq_some_iff.mp h
  have hx : e.1 = x := by simpa using List.find?_some he
  rw [← hx]
  exact List.mem_of_find?_eq_some he

/-- When the names are distinct, a child is found by its name. -/
theorem child_of_mem (hn : ((K n).map Prod.fst).Nodup) (h : (x, c) ∈ K n) : child K n x = some c := by
  have hsome : ((K n).find? (fun e => e.1 = x)).isSome = true := by
    rw [List.find?_isSome]
    exact ⟨_, h, by simp⟩
  obtain ⟨e, he⟩ := Option.isSome_iff_exists.mp hsome
  have hx : e.1 = x := by simpa using List.find?_some he
  have hmem := List.mem_of_find?_eq_some he
  have : e = (x, c) := List.inj_on_of_nodup_map hn hmem h hx
  rw [child, he, this]
  rfl

end walk

variable [DecidableEq ι]

/-- `c` becomes the last child of `parent`. -/
def addChild (K : ι → List (α × ι)) (parent : ι) (x : α) (c : ι) : ι → List (α × ι) :=
  Function.update K parent (K parent ++ [(x, c)])

theorem addChild_parent (K : ι → List (α × ι)) (parent : ι) (x : α) (c : ι) :
    addChild K parent x c parent = K parent ++ [(x, c)] := Function.update_self ..

theorem addChild_ne (h : n ≠ parent) : addChild K parent x c n = K n := Function.update_of_ne h ..

variable [DecidableEq α]

theorem child_addChild_parent (h : child K parent x = none) (y : α) :
    child (addChild K parent x c) parent y = if y = x then some c else child K parent y := by
  unfold child at h ⊢
  rw [addChild_parent, List.find?_append]
  by_cases hy : y = x
  · subst hy
    rw [Option.map_eq_none_iff.mp h, if_pos rfl]
    simp
  · rw [if_neg hy]
    simp [Ne.symm hy]

theorem child_addChild_ne (h : n ≠ parent) (y : α) : child (addChild K parent x c) n y = child K n y := by
  unfold child
  rw [addChild_ne h]

/-- A new child is led to by one list of names, and nothing else changes. -/
theorem walk_addChild (hu : Unique K root) (hp : walk K root p = some parent) (hx : child K parent x = none)
    (hc : K c = []) (hne : c ≠ parent) (q : List α) :
    walk (addChild K parent x c) root q = if q = p ++ [x] then some c else walk K root q := by
  have hgone : walk K root (p ++ [x]) = none := by
    rw [walk_concat, hp, Option.bind_some, hx]
  -- from the right: only the last name can meet the new child
  induction q using List.reverseRecOn with
  | nil => rw [if_neg (by simp)]; rfl
  | append_singleton q y ih =>
    rw [walk_concat, ih]
    by_cases hq : q = p ++ [x]
    · subst hq
      rw [if_pos rfl, if_neg (by simp), Option.bind_some, child_addChild_ne hne, walk_concat, hgone]
      simp [child, hc]
    rw [if_neg hq, walk_concat]
    have hlast : q ++ [y] = p ++ [x] ↔ q = p ∧ y = x :=
      ⟨fun he => ⟨List.append_inj_left' he rfl, by simpa using List.append_inj_right' he rfl⟩,
        fun he => by rw [he.1, he.2]⟩
    simp only [hlast]
    cases hw : walk K root q with
    | none =>
      have hqp : q ≠ p := by
        rintro rfl
        rw [hp] at hw
        cases hw
      rw [Option.bind_none, if_neg (fun he => hqp he.1), Option.bind_none]
    | some n =>
      rw [Option.bind_some, Option.bind_some]
      by_cases hn : n = parent
      · subst hn
        obtain rfl := hu q p n hw hp
        simp only [child_addChild_parent hx, true_and]
      · have hqp : q ≠ p := by
          rintro rfl
          rw [hp] at hw
          exact hn (Option.some.inj hw).symm
        rw [child_addChild_ne hn, if_neg (fun he => hqp he.1)]

theorem Unique.addChild (hu : Unique K root) (hp : walk K root p = some parent) (hx : child K parent x = none)
    (hc : K c = []) (hne : c ≠ parent) (hnew : ∀ q, walk K root q ≠ some c) : Unique (addChild K parent x c) root := by
  intro q q' n hq hq'
  rw [walk_addChild hu hp hx hc hne] at hq hq'
  split at hq
  · rename_i he
    split at hq'
    · rename_i he'
      rw [he, he']
    · obtain rfl := Option.some.inj hq
      exact absurd hq' (hnew q')
  · split at hq'
    · obtain rfl := Option.some.inj hq'
      exact absurd hq (hnew q)
    · exact hu q q' n hq hq'

end SifarOS.NamedTree
