import SifarOS.Vfs
import Mathlib.Data.List.Perm.Basic
import Mathlib.Data.List.Nodup

/-! # The tree of nodes

The operations find a node by its path. When no inode number occurs twice, what they do to the tree
is said by the number of the node alone, wherever it is found. -/
namespace SifarOS.Vfs
namespace Forest

/-- The nodes of a forest. -/
def attrs : Forest → List Attrs
  | nil => []
  | node a child next => a :: (child.attrs ++ next.attrs)

def inodes (t : Forest) : List ℕ := t.attrs.map Attrs.inode

@[simp] theorem attrs_nil : nil.attrs = [] := rfl

@[simp] theorem attrs_node (a : Attrs) (child next : Forest) :
    (node a child next).attrs = a :: (child.attrs ++ next.attrs) := rfl

@[simp] theorem inodes_nil : nil.inodes = [] := rfl

@[simp] theorem inodes_node (a : Attrs) (child next : Forest) :
    (node a child next).inodes = a.inode :: (child.inodes ++ next.inodes) := by
  unfold inodes
  rw [attrs_node, List.map_cons, List.map_append]

theorem mem_inodes {t : Forest} {a : Attrs} (h : a ∈ t.attrs) : a.inode ∈ t.inodes := List.mem_map_of_mem h

/-- Every node is changed. -/
def mapAttrs (g : Attrs → Attrs) : Forest → Forest
  | nil => nil
  | node a child next => node (g a) (child.mapAttrs g) (next.mapAttrs g)

/-- A node without children is linked below inode `x`. -/
def linkAt (x : ℕ) (new : Attrs) : Forest → Forest
  | nil => nil
  | node a child next =>
    node a (if a.inode = x then child.link new nil else child.linkAt x new) (next.linkAt x new)

/-- The node of inode `x` is taken out with all that is below it. -/
def dropNode (x : ℕ) : Forest → Forest
  | nil => nil
  | node a child next => if a.inode = x then next.dropNode x else node a (child.dropNode x) (next.dropNode x)

variable {t child next : Forest} {a b new : Attrs} {x : ℕ} {g : Attrs → Attrs}

@[simp] theorem attrs_mapAttrs (g : Attrs → Attrs) (t : Forest) : (t.mapAttrs g).attrs = t.attrs.map g := by
  induction t with
  | nil => rfl
  | node a child next ihc ihn => simp [mapAttrs, ihc, ihn]

theorem mapAttrs_id (h : ∀ a ∈ t.attrs, g a = a) : t.mapAttrs g = t := by
  induction t with
  | nil => rfl
  | node a child next ihc ihn =>
    unfold mapAttrs
    rw [h a (by simp), ihc (fun b hb => h b (by simp [hb])), ihn (fun b hb => h b (by simp [hb]))]

theorem attrs_link (t : Forest) (a : Attrs) (child : Forest) : (t.link a child).attrs.Perm (a :: (child.attrs ++ t.attrs)) := by
  induction t with
  | nil => simp [link]
  | node b c next _ ihn =>
    unfold link
    split
    · rw [attrs_node, attrs_node]
      calc b :: (c.attrs ++ (next.link a child).attrs)
          |>.Perm (b :: (c.attrs ++ (a :: (child.attrs ++ next.attrs)))) := (ihn.append_left c.attrs).cons b
        _ |>.Perm ((a :: (child.attrs ++ next.attrs)) ++ (b :: c.attrs)) :=
          @List.perm_append_comm _ (b :: c.attrs) _
        _ |>.Perm (a :: (child.attrs ++ (b :: (c.attrs ++ next.attrs)))) := by
          simp only [List.cons_append, List.append_assoc]
          exact ((List.perm_append_comm).append_left child.attrs).cons a
    · rfl

theorem linkAt_of_not_mem (h : x ∉ t.inodes) : t.linkAt x new = t := by
  induction t with
  | nil => rfl
  | node a child next ihc ihn =>
    simp only [inodes_node, List.mem_cons, List.mem_append, not_or] at h
    unfold linkAt
    rw [if_neg (fun he => h.1 he.symm), ihc h.2.1, ihn h.2.2]

theorem dropNode_of_not_mem (h : x ∉ t.inodes) : t.dropNode x = t := by
  induction t with
  | nil => rfl
  | node a child next ihc ihn =>
    simp only [inodes_node, List.mem_cons, List.mem_append, not_or] at h
    unfold dropNode
    rw [if_neg (fun he => h.1 he.symm), ihc h.2.1, ihn h.2.2]

/-- The parts of a forest without repeated numbers. -/
theorem nodup_node (h : (node a child next).inodes.Nodup) : a.inode ∉ child.inodes ∧ a.inode ∉ next.inodes ∧
    child.inodes.Nodup ∧ next.inodes.Nodup ∧ (∀ y ∈ child.inodes, y ∉ next.inodes) := by
  rw [inodes_node, List.nodup_cons, List.nodup_append, List.mem_append, not_or] at h
  exact ⟨h.1.1, h.1.2, h.2.1, h.2.2.1, fun y hy hy' => h.2.2.2 y hy y hy' rfl⟩

theorem attrs_linkAt (hx : x ∈ t.inodes) (h : t.inodes.Nodup) (new : Attrs) : (t.linkAt x new).attrs.Perm (new :: t.attrs) := by
  induction t with
  | nil => cases hx
  | node a child next ihc ihn =>
    obtain ⟨hac, han, hc, hn, hdisj⟩ := nodup_node h
    simp only [inodes_node, List.mem_cons, List.mem_append] at hx
    unfold linkAt
    rw [attrs_node, attrs_node]
    by_cases ha : a.inode = x
    · subst ha
      rw [if_pos rfl, linkAt_of_not_mem han]
      have hlink := attrs_link child new nil
      rw [attrs_nil, List.nil_append] at hlink
      exact ((hlink.append_right next.attrs).cons a).trans (.swap _ _ _)
    · rw [if_neg ha]
      by_cases hxc : x ∈ child.inodes
      · rw [linkAt_of_not_mem (hdisj x hxc)]
        exact (((ihc hxc hc).append_right next.attrs).cons a).trans (.swap _ _ _)
      · have hxn : x ∈ next.inodes := (hx.resolve_left (fun he => ha he.symm)).resolve_left hxc
        rw [linkAt_of_not_mem hxc]
        exact (((ihn hxn hn).append_left child.attrs).cons a).trans
          ((List.perm_middle.cons a).trans (.swap _ _ _))

/-! ## Paths -/

theorem find_mem {name : Name} (h : t.find name = some (a, child)) : a ∈ t.attrs ∧ ∀ b ∈ child.attrs, b ∈ t.attrs := by
  induction t with
  | nil => cases h
  | node b c next _ ihn =>
    unfold find at h
    split at h
    · obtain ⟨rfl, rfl⟩ := Prod.mk.inj (Option.some.inj h)
      exact ⟨by simp, fun d hd => by simp [hd]⟩
    · obtain ⟨h₁, h₂⟩ := ihn h
      exact ⟨by simp [h₁], fun d hd => by simp [h₂ d hd]⟩

end Forest

open Forest

variable {m : Mount} {r a : Attrs} {t child : Forest} {name : Name} {rest path : List Name}

theorem follow_cons (h : follow (r, t) (name :: rest) = some (a, child)) :
    r.dir = true ∧ ∃ b c, t.find name = some (b, c) ∧ follow (b, c) rest = some (a, child) := by
  unfold follow at h
  split at h
  · rename_i hd
    obtain ⟨⟨b, c⟩, h₁, h₂⟩ := Option.bind_eq_some_iff.mp h
    exact ⟨hd, b, c, h₁, h₂⟩
  · cases h

theorem follow_mem (h : follow (r, t) path = some (a, child)) :
    a ∈ (node r t nil).attrs ∧ ∀ b ∈ child.attrs, b ∈ t.attrs := by
  induction path generalizing r t with
  | nil =>
    obtain ⟨rfl, rfl⟩ := Prod.mk.inj (Option.some.inj h)
    exact ⟨by simp, fun _ hb => hb⟩
  | cons name rest ih =>
    obtain ⟨_, b, c, hf, hrest⟩ := follow_cons h
    obtain ⟨h₁, h₂⟩ := find_mem hf
    obtain ⟨h₃, h₄⟩ := ih hrest
    refine ⟨?_, fun d hd => h₂ d (h₄ d hd)⟩
    simp only [attrs_node, attrs_nil, List.append_nil, List.mem_cons] at h₃ ⊢
    rcases h₃ with rfl | h₃
    · exact Or.inr h₁
    · exact Or.inr (h₂ a h₃)

theorem follow_append (node : Attrs × Forest) (p q : List Name) :
    follow node (p ++ q) = (follow node p).bind (follow · q) := by
  induction p generalizing node with
  | nil => rfl
  | cons name rest ih =>
    simp only [List.cons_append, follow]
    split
    · cases node.2.find name with
      | none => rfl
      | some next => exact ih next
    · rfl

theorem find_nodup {name : Name} (h : t.inodes.Nodup) (hf : t.find name = some (a, child)) :
    (Forest.node a child .nil).inodes.Nodup := by
  induction t with
  | nil => cases hf
  | node b c next _ ihn =>
    obtain ⟨hbc, -, hc, hn, -⟩ := nodup_node h
    unfold find at hf
    split at hf
    · obtain ⟨rfl, rfl⟩ := Prod.mk.inj (Option.some.inj hf)
      simpa using ⟨hbc, hc⟩
    · exact ihn hn hf

theorem follow_nodup {r : Attrs} (h : (Forest.node r t .nil).inodes.Nodup) (hf : follow (r, t) path = some (a, child)) :
    (Forest.node a child .nil).inodes.Nodup := by
  induction path generalizing r t with
  | nil =>
    obtain ⟨rfl, rfl⟩ := Prod.mk.inj (Option.some.inj hf)
    exact h
  | cons name rest ih =>
    obtain ⟨_, b, c, hfind, hrest⟩ := follow_cons hf
    obtain ⟨-, -, ht, -, -⟩ := nodup_node h
    exact ih (find_nodup ht hfind) hrest

/-- A path of names leads to a node, each name to the first sibling that has it. -/
inductive Found (a : Attrs) (child : Forest) : Forest → List Name → Prop
  | here (next : Forest) : Found a child (node a child next) [a.name]
  | down {b : Attrs} {c : Forest} {name : Name} {rest : List Name} (next : Forest)
      (h : Found a child c (name :: rest)) : Found a child (node b c next) (b.name :: name :: rest)
  | beside {b : Attrs} {next : Forest} {name : Name} {rest : List Name} (c : Forest) (hne : b.name ≠ name)
      (h : Found a child next (name :: rest)) : Found a child (node b c next) (name :: rest)

theorem found_of_follow (hf : follow (r, t) (name :: rest) = some (a, child)) : Found a child t (name :: rest) := by
  induction t generalizing r name rest with
  | nil =>
    obtain ⟨_, b, c, hfind, _⟩ := follow_cons hf
    cases hfind
  | node b c next ihc ihn =>
    obtain ⟨hr, b', c', hfind, hrest⟩ := follow_cons hf
    unfold find at hfind
    by_cases hname : b.name = name
    · subst hname
      rw [if_pos rfl] at hfind
      obtain ⟨rfl, rfl⟩ := Prod.mk.inj (Option.some.inj hfind)
      cases rest with
      | nil =>
        obtain ⟨rfl, rfl⟩ := Prod.mk.inj (Option.some.inj hrest)
        exact .here next
      | cons name' rest' => exact .down next (ihc hrest)
    · rw [if_neg hname] at hfind
      refine .beside c hname (ihn (r := r) ?_)
      unfold follow
      rw [if_pos hr, hfind]
      exact hrest

theorem Found.mem (h : Found a child t path) : a.inode ∈ t.inodes := by
  induction h with
  | here next => simp
  | down next _ ih => simp [ih]
  | beside c _ _ ih => simp [ih]

namespace Forest

/-- Changing the size of the node at a path changes the node of that number. -/
theorem modify_size (h : t.inodes.Nodup) (hf : Found a child t path) (s : ℕ) :
    t.modify (fun b c => ({ b with size := s }, c)) path =
      t.mapAttrs (fun b => if b.inode = a.inode then { b with size := s } else b) := by
  have hstay : ∀ {t' : Forest}, a.inode ∉ t'.inodes →
      t'.mapAttrs (fun b => if b.inode = a.inode then { b with size := s } else b) = t' :=
    fun ht' => mapAttrs_id (fun d hd => if_neg (ne_of_mem_of_not_mem (mem_inodes hd) ht'))
  induction hf with
  | here next =>
    obtain ⟨hc, hn, -⟩ := nodup_node h
    simp [modify, mapAttrs, hstay hc, hstay hn]
  | down next hf ih =>
    obtain ⟨hbc, -, hc, -, hdisj⟩ := nodup_node h
    have hne := (ne_of_mem_of_not_mem hf.mem hbc).symm
    simp [modify, mapAttrs, ih hc, hstay (hdisj _ hf.mem), hne]
  | beside c hname hf ih =>
    obtain ⟨-, hbn, -, hn, hdisj⟩ := nodup_node h
    have hne := (ne_of_mem_of_not_mem hf.mem hbn).symm
    simp [modify, mapAttrs, ih hn, hstay (fun hc => hdisj _ hc hf.mem), hne, hname]

/-- Linking a node into the directory at a path. -/
theorem modify_link (h : t.inodes.Nodup) (hf : Found a child t path) (new : Attrs) :
    t.modify (fun b c => (b, c.link new nil)) path = t.linkAt a.inode new := by
  induction hf with
  | here next =>
    obtain ⟨hc, hn, -⟩ := nodup_node h
    simp [modify, linkAt, linkAt_of_not_mem hn]
  | down next hf ih =>
    obtain ⟨hbc, -, hc, -, hdisj⟩ := nodup_node h
    have hne := (ne_of_mem_of_not_mem hf.mem hbc).symm
    simp [modify, linkAt, ih hc, linkAt_of_not_mem (hdisj _ hf.mem), hne]
  | beside c hname hf ih =>
    obtain ⟨-, hbn, -, hn, hdisj⟩ := nodup_node h
    have hne := (ne_of_mem_of_not_mem hf.mem hbn).symm
    simp [modify, linkAt, ih hn, linkAt_of_not_mem (fun hc => hdisj _ hc hf.mem), hne, hname]

/-- Taking out the node at a path. -/
theorem remove_eq (h : t.inodes.Nodup) (hf : Found a child t path) : t.remove path = t.dropNode a.inode := by
  induction hf with
  | here next =>
    obtain ⟨hc, hn, -⟩ := nodup_node h
    simp [remove, dropNode, dropNode_of_not_mem hn]
  | down next hf ih =>
    obtain ⟨hbc, -, hc, -, hdisj⟩ := nodup_node h
    have hne := (ne_of_mem_of_not_mem hf.mem hbc).symm
    simp [remove, dropNode, ih hc, dropNode_of_not_mem (hdisj _ hf.mem), hne]
  | beside c hname hf ih =>
    obtain ⟨-, hbn, -, hn, hdisj⟩ := nodup_node h
    have hne := (ne_of_mem_of_not_mem hf.mem hbn).symm
    simp [remove, dropNode, ih hn, dropNode_of_not_mem (fun hc => hdisj _ hc hf.mem), hne, hname]

/-- What is taken out and what stays are the nodes that were there. -/
theorem attrs_dropNode (h : t.inodes.Nodup) (hf : Found a child t path) :
    t.attrs.Perm (a :: child.attrs ++ (t.dropNode a.inode).attrs) := by
  induction hf with
  | here next =>
    obtain ⟨-, hn, -⟩ := nodup_node h
    simp [dropNode, dropNode_of_not_mem hn]
  | @down b c _ _ next hf ih =>
    obtain ⟨hbc, -, hc, -, hdisj⟩ := nodup_node h
    have hne := (ne_of_mem_of_not_mem hf.mem hbc).symm
    unfold dropNode
    rw [if_neg hne, dropNode_of_not_mem (hdisj _ hf.mem), attrs_node, attrs_node]
    refine (((ih hc).append_right next.attrs).cons b).trans ?_
    rw [List.append_assoc]
    exact List.perm_middle.symm
  | @beside b next _ _ c hname hf ih =>
    obtain ⟨-, hbn, -, hn, hdisj⟩ := nodup_node h
    have hne := (ne_of_mem_of_not_mem hf.mem hbn).symm
    unfold dropNode
    rw [if_neg hne, dropNode_of_not_mem (fun hc => hdisj _ hc hf.mem), attrs_node, attrs_node]
    refine (((ih hn).append_left c.attrs).cons b).trans ?_
    rw [← List.append_assoc]
    refine ((List.perm_append_comm.append_right _).cons b).trans ?_
    rw [List.append_assoc]
    exact List.perm_middle.symm

/-! ## Names of siblings -/

/-- No two siblings have one name. -/
def Distinct : Forest → Prop
  | nil => True
  | node a child next => next.find a.name = none ∧ child.Distinct ∧ next.Distinct

/-- What becomes of the children of a node when `new` is linked below inode `x`. -/
def linkBelow (x : ℕ) (new b : Attrs) (c : Forest) : Forest := if b.inode = x then c.link new nil else c.linkAt x new

theorem find_linkAt (x : ℕ) (new : Attrs) (t : Forest) (n : Name) :
    (t.linkAt x new).find n = (t.find n).map (fun p => (p.1, linkBelow x new p.1 p.2)) := by
  induction t with
  | nil => rfl
  | node b c next _ ihn =>
    simp only [linkAt, find]
    split
    · rfl
    · exact ihn

theorem find_link {c : Forest} (h : t.find new.name = none) (n : Name) :
    (t.link new c).find n = if new.name = n then some (new, c) else t.find n := by
  induction t with
  | nil => rfl
  | node b d next _ ihn =>
    simp only [find] at h
    by_cases hb : b.name = new.name
    · rw [if_pos hb] at h
      cases h
    rw [if_neg hb] at h
    unfold link
    split
    · simp only [find, ihn h]
      by_cases hn : new.name = n
      · have hbn : b.name ≠ n := fun he => hb (he.trans hn.symm)
        simp only [if_pos hn, if_neg hbn]
      · simp only [if_neg hn]
    · rfl

theorem find_mapAttrs {g : Attrs → Attrs} (hn : ∀ a, (g a).name = a.name) (t : Forest) (name : Name) :
    (t.mapAttrs g).find name = (t.find name).map (fun p => (g p.1, p.2.mapAttrs g)) := by
  induction t with
  | nil => rfl
  | node b c next _ ihn =>
    simp only [mapAttrs, find, hn]
    split
    · rfl
    · exact ihn

theorem find_dropNode (h : t.Distinct) (x : ℕ) (n : Name) :
    (t.dropNode x).find n = (t.find n).bind (fun p => if p.1.inode = x then none else some (p.1, p.2.dropNode x)) := by
  induction t with
  | nil => rfl
  | node b c next _ ihn =>
    obtain ⟨hb, -, hn⟩ := h
    have hdrop : (node b c next).dropNode x =
        if b.inode = x then next.dropNode x else node b (c.dropNode x) (next.dropNode x) := rfl
    rw [hdrop]
    by_cases hx : b.inode = x
    · rw [if_pos hx, ihn hn]
      by_cases hname : b.name = n
      · subst hname
        simp [find, hb, hx]
      · simp [find, hname]
    · rw [if_neg hx]
      by_cases hname : b.name = n
      · simp [find, hname, hx]
      · simp [find, hname, ihn hn]

theorem Distinct.mapAttrs {g : Attrs → Attrs} (hn : ∀ a, (g a).name = a.name) (h : t.Distinct) : (t.mapAttrs g).Distinct := by
  induction t with
  | nil => trivial
  | node b c next ihc ihn =>
    obtain ⟨hb, hc, hnext⟩ := h
    refine ⟨?_, ihc hc, ihn hnext⟩
    rw [find_mapAttrs hn, hn, hb]
    rfl

theorem Distinct.link {c : Forest} (h : t.Distinct) (hc : c.Distinct) (hn : t.find new.name = none) : (t.link new c).Distinct := by
  induction t with
  | nil => exact ⟨rfl, hc, trivial⟩
  | node b d next _ ihn =>
    obtain ⟨hb, hd, hnext⟩ := h
    have hne : b.name ≠ new.name := by
      intro he
      simp only [find, if_pos he] at hn
      cases hn
    have hn' : next.find new.name = none := by
      simp only [find, if_neg hne] at hn
      exact hn
    unfold Forest.link
    split
    · refine ⟨?_, hd, ihn hnext hn'⟩
      rw [find_link hn', if_neg (Ne.symm hne)]
      exact hb
    · refine ⟨?_, hc, hb, hd, hnext⟩
      simp only [find, if_neg hne]
      exact hn'

theorem Distinct.linkAt {a : Attrs} {path : List Name} (h : t.Distinct) (hnd : t.inodes.Nodup) (hf : Found a child t path)
    (hn : child.find new.name = none) : (t.linkAt a.inode new).Distinct := by
  induction hf with
  | here next =>
    obtain ⟨hc, hnext, -⟩ := nodup_node hnd
    obtain ⟨h₁, h₂, h₃⟩ := h
    simp only [Forest.linkAt, if_pos, linkAt_of_not_mem hnext]
    exact ⟨h₁, h₂.link trivial hn, h₃⟩
  | down next hf ih =>
    obtain ⟨hbc, -, hc, -, hdisj⟩ := nodup_node hnd
    obtain ⟨h₁, h₂, h₃⟩ := h
    simp only [Forest.linkAt, if_neg (ne_of_mem_of_not_mem hf.mem hbc).symm, linkAt_of_not_mem (hdisj _ hf.mem)]
    exact ⟨h₁, ih h₂ hc, h₃⟩
  | beside c hname hf ih =>
    obtain ⟨-, hbn, -, hnn, hdisj⟩ := nodup_node hnd
    obtain ⟨h₁, h₂, h₃⟩ := h
    simp only [Forest.linkAt, if_neg (ne_of_mem_of_not_mem hf.mem hbn).symm,
      linkAt_of_not_mem (fun hc => hdisj _ hc hf.mem)]
    refine ⟨?_, h₂, ih h₃ hnn⟩
    rw [find_linkAt, h₁]
    rfl

theorem Distinct.dropNode (h : t.Distinct) (x : ℕ) : (t.dropNode x).Distinct := by
  induction t with
  | nil => trivial
  | node b c next ihc ihn =>
    obtain ⟨hb, hc, hn⟩ := h
    unfold Forest.dropNode
    split
    · exact ihn hn
    · refine ⟨?_, ihc hc, ihn hn⟩
      rw [find_dropNode hn, hb]
      rfl

theorem Distinct.find (h : t.Distinct) {name : Name} (hf : t.find name = some (a, child)) : child.Distinct := by
  induction t with
  | nil => cases hf
  | node b c next _ ihn =>
    obtain ⟨-, hc, hn⟩ := h
    unfold Forest.find at hf
    split at hf
    · obtain ⟨rfl, rfl⟩ := Prod.mk.inj (Option.some.inj hf)
      exact hc
    · exact ihn hn hf

/-- The children of different siblings have no number in common. -/
theorem find_disjoint (h : t.inodes.Nodup) {n n' : Name} (hne : n ≠ n') {b b' : Attrs} {c c' : Forest}
    (hf : t.find n = some (b, c)) (hf' : t.find n' = some (b', c')) :
    ∀ y ∈ (node b c nil).inodes, y ∉ (node b' c' nil).inodes := by
  have hsub : ∀ {t : Forest} {n : Name} {b : Attrs} {c : Forest}, t.find n = some (b, c) →
      ∀ y ∈ (node b c nil).inodes, y ∈ t.inodes := by
    intro t n b c hf y hy
    obtain ⟨h₁, h₂⟩ := find_mem hf
    obtain ⟨d, hd, rfl⟩ := List.mem_map.mp hy
    simp only [attrs_node, attrs_nil, List.append_nil, List.mem_cons] at hd
    rcases hd with rfl | hd
    · exact mem_inodes h₁
    · exact mem_inodes (h₂ d hd)
  have hhead : ∀ {d : Attrs} {e next : Forest}, (node d e next).inodes.Nodup → ∀ y ∈ (node d e nil).inodes, y ∉ next.inodes := by
    intro d e next hnd y hy
    obtain ⟨-, hdn, -, -, hdisj⟩ := nodup_node hnd
    simp only [inodes_node, inodes_nil, List.append_nil, List.mem_cons] at hy
    rcases hy with rfl | hy
    · exact hdn
    · exact hdisj y hy
  induction t with
  | nil => cases hf
  | node d e next _ ihn =>
    have hd := hhead h
    obtain ⟨-, -, -, hn, -⟩ := nodup_node h
    unfold Forest.find at hf hf'
    split at hf
    · rename_i hdn
      rw [if_neg (fun he => hne (hdn.symm.trans he))] at hf'
      obtain ⟨rfl, rfl⟩ := Prod.mk.inj (Option.some.inj hf)
      exact fun y hy hy' => hd y hy (hsub hf' y hy')
    · split at hf'
      · obtain ⟨rfl, rfl⟩ := Prod.mk.inj (Option.some.inj hf')
        exact fun y hy hy' => hd y hy' (hsub hf y hy)
      · exact ihn hn hf hf'

end Forest

/-! ## Changes at a path -/

/-- A change to the node at a path; the empty path is the first node's. -/
def modifyNode (change : Attrs → Forest → Attrs × Forest) (node : Attrs × Forest) : List Name → Attrs × Forest
  | [] => change node.1 node.2
  | name :: rest => (node.1, node.2.modify change (name :: rest))

section modifyNode

variable {change : Attrs → Forest → Attrs × Forest}

theorem find_modify (hn : ∀ a c, (change a c).1.name = a.name) (t : Forest) (name : Name) (rest : List Name) (n : Name) :
    (t.modify change (name :: rest)).find n =
      if name = n then (t.find n).map (modifyNode change · rest) else t.find n := by
  induction t with
  | nil => simp [Forest.modify, Forest.find]
  | node a c next _ ihn =>
    unfold Forest.modify
    by_cases ha : a.name = name
    · rw [if_pos ha]
      cases rest with
      | nil =>
        simp only [Forest.find, hn, ha]
        split <;> rfl
      | cons name' rest' =>
        simp only [Forest.find, ha]
        split <;> rfl
    · rw [if_neg ha]
      simp only [Forest.find, ihn]
      by_cases hname : name = n
      · subst hname
        rw [if_neg ha, if_neg ha]
      · rw [if_neg hname, if_neg hname]

theorem find_remove (t : Forest) {name : Name} {rest : List Name} {n : Name} (h : name = n → rest ≠ []) :
    (t.remove (name :: rest)).find n = if name = n then (t.find n).map (fun p => (p.1, p.2.remove rest)) else t.find n := by
  induction t with
  | nil => simp [Forest.remove, Forest.find]
  | node a c next _ ihn =>
    have hremove : (Forest.node a c next).remove (name :: rest) =
        if a.name = name then (match rest with | [] => next | _ :: _ => .node a (c.remove rest) next)
        else .node a c (next.remove (name :: rest)) := by
      cases rest <;> rfl
    rw [hremove]
    by_cases ha : a.name = name
    · rw [if_pos ha]
      cases rest with
      | nil =>
        have hne : name ≠ n := fun he => h he rfl
        simp only [Forest.find, ha, if_neg hne]
      | cons name' rest' =>
        simp only [Forest.find, ha]
        split <;> rfl
    · rw [if_neg ha]
      simp only [Forest.find, ihn]
      by_cases hname : name = n
      · subst hname
        rw [if_neg ha, if_neg ha]
      · rw [if_neg hname, if_neg hname]

/-- The nodes after the size of one was changed. -/
theorem node_modifyNode_size (h : (Forest.node r t .nil).inodes.Nodup) (hf : follow (r, t) path = some (a, child)) (s : ℕ) :
    Forest.node (modifyNode (fun b c => ({ b with size := s }, c)) (r, t) path).1
        (modifyNode (fun b c => ({ b with size := s }, c)) (r, t) path).2 .nil =
      (Forest.node r t .nil).mapAttrs (fun b => if b.inode = a.inode then { b with size := s } else b) := by
  obtain ⟨hr, -, ht, -, -⟩ := nodup_node h
  cases path with
  | nil =>
    obtain ⟨rfl, rfl⟩ := Prod.mk.inj (Option.some.inj hf)
    have htree : t.mapAttrs (fun b => if b.inode = r.inode then { b with size := s } else b) = t :=
      mapAttrs_id (fun b hb => if_neg (ne_of_mem_of_not_mem (mem_inodes hb) hr))
    simp only [modifyNode, mapAttrs, htree, if_pos]
  | cons name rest =>
    have hfound := found_of_follow hf
    have hne := (ne_of_mem_of_not_mem hfound.mem hr).symm
    simp only [modifyNode, mapAttrs, modify_size ht hfound, if_neg hne]

/-- The nodes after one was linked. -/
theorem node_modifyNode_link (h : (Forest.node r t .nil).inodes.Nodup) (hf : follow (r, t) path = some (a, child)) (new : Attrs) :
    Forest.node (modifyNode (fun b c => (b, c.link new .nil)) (r, t) path).1
        (modifyNode (fun b c => (b, c.link new .nil)) (r, t) path).2 .nil = (Forest.node r t .nil).linkAt a.inode new := by
  obtain ⟨hr, -, ht, -, -⟩ := nodup_node h
  cases path with
  | nil =>
    obtain ⟨rfl, rfl⟩ := Prod.mk.inj (Option.some.inj hf)
    simp only [modifyNode, linkAt, if_pos]
  | cons name rest =>
    have hfound := found_of_follow hf
    have hne := (ne_of_mem_of_not_mem hfound.mem hr).symm
    simp only [modifyNode, linkAt, if_neg hne, modify_link ht hfound]

end modifyNode

/-! ## Volumes -/

/-- The root with all that is below it. -/
def Volume.all {σ : Type} (v : Volume σ) : Forest := .node v.root v.tree .nil

section Volume
variable {σ : Type} {v : Volume σ} {a : Attrs} {child : Forest} {names : List Name}

theorem modify_node (v : Volume σ) (path : List Name) (change : Attrs → Forest → Attrs × Forest) :
    ((v.modify path change).root, (v.modify path change).tree) = modifyNode change (v.root, v.tree) path ∧
      (v.modify path change).fs = v.fs := by
  cases path <;> exact ⟨rfl, rfl⟩

theorem lookup_follow {cwd : Option (List UInt8)} {p : List UInt8} (h : v.lookup cwd p = some (names, a, child)) :
    follow (v.root, v.tree) names = some (a, child) ∧ ∃ absolute, abspath cwd p = some absolute ∧ names = segments absolute := by
  obtain ⟨absolute, ha, h⟩ := Option.bind_eq_some_iff.mp h
  obtain ⟨node, hn, h⟩ := Option.map_eq_some_iff.mp h
  obtain ⟨h₁, h₂⟩ := Prod.mk.inj h
  subst h₁ h₂
  exact ⟨hn, absolute, ha, rfl⟩

/-- A call of `vfs_create` that comes to the driver. -/
structure CreateCall (v : Volume σ) (cwd : Option (List UInt8)) (path : List UInt8) (parentPath : List Name) (parent : Attrs)
    (children : Forest) (name : Name) : Prop where
  split : ∃ absolute before, abspath cwd path = some absolute ∧ absolute ≠ [slash] ∧
    splitLast absolute = some (before, name) ∧ v.lookup none (if before = [] then [slash] else before) = some (parentPath, parent, children)
  found : follow (v.root, v.tree) parentPath = some (parent, children)
  dir : parent.dir = true
  missing : children.find name = none
  short : name.length < 32

/-- What `vfs_create` does. -/
theorem Volume.create_cases (ops : FsOps σ) (now : Moment) (v : Volume σ) (cwd : Option (List UInt8)) (p : List UInt8) (dir : Bool) :
    v.create ops now cwd p dir = (v, none) ∨
    ∃ parentPath parent children name, CreateCall v cwd p parentPath parent children name ∧
      (((ops.create now v.fs parent name dir).2 = none ∧
          v.create ops now cwd p dir = ({ v with fs := (ops.create now v.fs parent name dir).1 }, none)) ∨
        ∃ number, (ops.create now v.fs parent name dir).2 = some number ∧
          v.create ops now cwd p dir =
            (Volume.modify { v with fs := (ops.create now v.fs parent name dir).1 } parentPath (fun a c =>
              (a, c.link { name := name, dir := dir, readonly := false, size := 0, inode := number } .nil)),
            some (parentPath ++ [name]))) := by
  unfold Volume.create
  cases habs : abspath cwd p with
  | none => exact Or.inl rfl
  | some absolute =>
    dsimp only
    by_cases hroot : absolute = [slash]
    · rw [if_pos hroot]
      exact Or.inl rfl
    rw [if_neg hroot]
    cases hsplit : splitLast absolute with
    | none => exact Or.inl rfl
    | some parts =>
      obtain ⟨before, name⟩ := parts
      dsimp only
      cases hlook : v.lookup none (if before = [] then [slash] else before) with
      | none => exact Or.inl rfl
      | some found =>
        obtain ⟨parentPath, parent, children⟩ := found
        dsimp only
        by_cases hcond : parent.dir = false ∨ (children.find name).isSome = true ∨ 32 ≤ name.length ∨ now.node = false
        · rw [if_pos hcond]
          exact Or.inl rfl
        rw [if_neg hcond]
        simp only [not_or, Bool.not_eq_false, Bool.not_eq_true, Option.isSome_eq_false_iff, Option.isNone_iff_eq_none,
          Nat.not_le] at hcond
        refine Or.inr ⟨parentPath, parent, children, name,
          ⟨⟨absolute, before, habs, hroot, hsplit, hlook⟩, (lookup_follow hlook).1, hcond.1, hcond.2.1, hcond.2.2.1⟩, ?_⟩
        cases hres : (ops.create now v.fs parent name dir).2 with
        | none => exact Or.inl ⟨rfl, rfl⟩
        | some number => exact Or.inr ⟨number, rfl, rfl⟩

end Volume
end SifarOS.Vfs
