import SifarOS.VfsNodeTree
import SifarOS.VfsRefinement
import SifarOS.CanonicalPaths
import Mathlib.Data.List.Induction
import Mathlib.Data.List.Forall2

/-! # Nodes and their paths

`vfs_path_of` climbs from a node to the root by the parent pointers, `vfs_lookup` goes down by the
names. `vfs_path_of` notes the nodes it passes in an array of 32 entries and stops when it is full. -/
namespace SifarOS.Vfs

namespace Nodes

variable (s : Nodes)

/-- The loop of `vfs_path_of` that fills `chain`, in which `left` entries are free. -/
def climb : ℕ → ℕ → Option (List ℕ)
  | 0, node => if node = 0 then some [] else (s.heap node).map (fun _ => [])
  | left + 1, node =>
    if node = 0 then some []
    else (s.heap node).bind (fun n => if n.parent = 0 then some [] else (climb left n.parent).map (node :: ·))

/-- The loop that writes the names, on what is left of `chain`; the inner `none` is -1. -/
def writeNames (size : ℕ) : List ℕ → List UInt8 → Option (Option (List UInt8))
  | [], out => some (some out)
  | c :: rest, out =>
    (s.heap c).bind (fun n =>
      if size ≤ out.length + 1 + n.name.length then some none else writeNames size rest (out ++ slash :: n.name))

/-- `vfs_path_of`: the string in `out` when it returns 0. -/
def vfsPathOf (node size : ℕ) : Option (Option (List UInt8)) :=
  if node = 0 ∨ size = 0 then some none
  else (s.climb 32 node).bind (fun chain =>
    if chain = [] then some (some ([slash].take (size - 1))) else s.writeNames size chain.reverse [])

/-- The root is `n` parent pointers above a node. -/
inductive Below : ℕ → ℕ → Prop
  | root : Below 0 s.root
  | child {x k : ℕ} {n : FsNode} (hx : s.heap x = some n) (hne : n.parent ≠ 0) (h : Below k n.parent) : Below (k + 1) x

end Nodes

/-- The names of the current directory. -/
def cwdNames (cwd : Option (List UInt8)) : List Name :=
  match cwd with
  | none => []
  | some dir => segments dir

/-- The path, resolved against the current directory and written in one way. -/
def canonicalForm (cwd : Option (List UInt8)) (path : List UInt8) : List UInt8 :=
  written (resolve (origin (cwdNames cwd) path) (segments path))

/-- `vfs_path_of` and `vfs_lookup` are inverse at a node. From a directory that is no canonical path the
absolute path is the only canonical form there is. -/
structure PathsInverse (s : Nodes) (x : ℕ) : Prop where
  lookup_path : ∀ size out, s.vfsPathOf x size = some (some out) → s.vfsLookup none out = some x
  path_lookup : ∀ cwd path, CwdOk cwd → s.vfsLookup cwd path = some x → ∀ size, (canonicalForm cwd path).length < size →
    s.vfsPathOf x size = some (some (canonicalForm cwd path))
  path_absolute : ∀ cwd path absolute, abspath cwd path = some absolute → s.vfsLookup cwd path = some x →
    ∀ size, (written (segments absolute)).length < size → s.vfsPathOf x size = some (some (written (segments absolute)))

/-! ## What `vfs_abspath` resolves -/

section resolving

variable {cwd : Option (List UInt8)} {path absolute start stack : List UInt8} {names segs : List Name}

theorem startOf_resolves (hcwd : CwdOk cwd) (hs : startOf cwd path = some start) : Stack start (origin (cwdNames cwd) path) := by
  unfold startOf at hs
  cases cwd with
  | none =>
    obtain rfl := Option.some.inj hs
    simpa [origin, cwdNames] using stack_nil
  | some dir =>
    obtain ⟨segs, hdir⟩ := hcwd dir rfl
    have hnames : cwdNames (some dir) = segs := hdir.segments
    dsimp only at hs
    rw [hnames]
    split at hs
    · next habsolute =>
      obtain rfl := Option.some.inj hs
      have hempty : origin segs path = [] := by
        unfold origin
        rcases habsolute with hslash | rfl
        · rw [if_pos hslash]
        · rw [← hdir.segments]
          exact ite_self _
      rw [hempty]
      exact stack_nil
    · next hrelative =>
      have hrel : origin segs path = segs := if_neg fun hslash => hrelative (Or.inl hslash)
      rw [hrel]
      split at hs
      · cases hs
      split at hs
      · next hlast => exact absurd hlast.2 (hdir.getLast hlast.1)
      · exact Option.some.inj hs ▸ hdir

theorem foldlM_resolves (h : Stack start names) (hsegs : ∀ seg ∈ segs, seg ≠ [] ∧ slash ∉ seg)
    (hp : segs.foldlM pushSegment start = some stack) : Stack stack (resolve names segs) := by
  have hclean := Clean.resolve h.1 hsegs
  rcases h.2 with rfl | rfl
  · exact ⟨hclean, Or.inl (foldlM_render h.1 hsegs hp)⟩
  · have hstack := foldlM_extra h.1 hsegs hp
    refine ⟨hclean, ?_⟩
    split at hstack
    · exact Or.inl hstack
    · exact Or.inr hstack

/-- The names of the absolute path are those the path resolves to. -/
theorem abspath_resolves (hcwd : CwdOk cwd) (ha : abspath cwd path = some absolute) :
    segments absolute = resolve (origin (cwdNames cwd) path) (segments path) := by
  obtain ⟨start, hs, ha⟩ := Option.bind_eq_some_iff.mp ha
  obtain ⟨stack, hf, ha⟩ := Option.map_eq_some_iff.mp ha
  have hstack := foldlM_resolves (startOf_resolves hcwd hs) (segments_clean path) hf
  rw [← hstack.segments, ← ha]
  split
  · next hnil =>
    rw [hnil]
    rfl
  · rfl

end resolving

/-! ## The path of a node -/

section paths

variable {s : Nodes} {r a b : Attrs} {t child : Forest} {name : Name} {path names : List Name} {len left size x : ℕ}

theorem find_name (hf : t.find name = some (a, child)) : a.name = name ∧ a ∈ t.siblings := by
  induction t with
  | nil => cases hf
  | node b c next _ ihn =>
    unfold Forest.find at hf
    split at hf
    · next hname =>
      obtain ⟨rfl, rfl⟩ := Prod.mk.inj (Option.some.inj hf)
      exact ⟨hname, List.mem_cons_self⟩
    · obtain ⟨hname, hmem⟩ := ihn hf
      exact ⟨hname, List.mem_cons_of_mem _ hmem⟩

theorem Forest.exists_at (hx : x ∈ t.inodes) : ∃ a child, At a child t ∧ a.inode = x := by
  induction t with
  | nil => cases hx
  | node b c next ihc ihn =>
    simp only [Forest.inodes_node, List.mem_cons, List.mem_append] at hx
    rcases hx with rfl | hx | hx
    · exact ⟨b, c, .here next, rfl⟩
    · obtain ⟨a, child, hat, he⟩ := ihc hx
      exact ⟨a, child, .down b next hat, he⟩
    · obtain ⟨a, child, hat, he⟩ := ihn hx
      exact ⟨a, child, .beside b c hat, he⟩

/-- Among siblings in order no name hides another, so every node of a tree has a path. -/
theorem At.exists_path (h : At a child t) (hs : t.Sorted) (hd : t.DirsOnly) :
    ∃ name rest b c, t.find name = some (b, c) ∧ follow (b, c) rest = some (a, child) := by
  induction h with
  | here next => exact ⟨a.name, [], a, child, if_pos rfl, rfl⟩
  | @down b c next h ih =>
    obtain ⟨name, rest, b', c', hfind, hrest⟩ := ih hs.2.1 hd.2.1
    have hdir : b.dir = true := by
      rw [← Bool.not_eq_false]
      intro hfile
      obtain rfl := hd.1 hfile
      cases h
    refine ⟨b.name, name :: rest, b, c, if_pos rfl, ?_⟩
    simp [follow, hdir, hfind, hrest]
  | @beside b c next h ih =>
    obtain ⟨name, rest, b', c', hfind, hrest⟩ := ih hs.2.2 hd.2.2
    obtain ⟨rfl, hmem⟩ := find_name hfind
    have hne : b.name ≠ b'.name := by
      intro he
      have hlt := hs.1 b' hmem
      rw [he, strcmpLt_irrefl] at hlt
      cases hlt
    exact ⟨b'.name, rest, b', c', (if_neg hne).trans hfind, hrest⟩

theorem IsTree.exists_path (h : IsTree s r t) (hx : Reached s x) :
    ∃ path a child, follow (r, t) path = some (a, child) ∧ a.inode = x := by
  obtain ⟨a, child, hat, he⟩ := Forest.exists_at ((h.reached_iff x).mp hx)
  cases hat with
  | here next => exact ⟨[], r, t, rfl, he⟩
  | down b next hat =>
    obtain ⟨name, rest, b, c, hfind, hrest⟩ := hat.exists_path h.sorted h.dirs.2.1
    refine ⟨name :: rest, a, child, ?_, he⟩
    simp [follow, h.rootDir, hfind, hrest]
  | beside b c hat => cases hat

/-- The last step of a path. -/
theorem follow_concat (hf : follow (r, t) (path ++ [name]) = some (a, child)) :
    ∃ b sib, follow (r, t) path = some (b, sib) ∧ sib.find name = some (a, child) := by
  rw [follow_append] at hf
  obtain ⟨⟨b, sib⟩, hp, hlook⟩ := Option.bind_eq_some_iff.mp hf
  obtain ⟨-, b', c', hfind, hsame⟩ := follow_cons hlook
  obtain ⟨rfl, rfl⟩ := Prod.mk.inj (Option.some.inj hsame)
  exact ⟨b, sib, hp, hfind⟩

theorem IsTree.clean (h : IsTree s r t) (hf : follow (r, t) path = some (a, child)) : Clean path := by
  induction path using List.reverseRecOn generalizing a child with
  | nil => exact stack_nil.1
  | append_singleton path name ih =>
    obtain ⟨b, sib, hp, hfind⟩ := follow_concat hf
    obtain ⟨rfl, -⟩ := find_name hfind
    obtain ⟨⟨hne, hslash, hdot, hdd⟩, -⟩ := h.names a ((follow_mem hp).2 a (Forest.find_mem hfind).1)
    exact (ih hp).append ⟨hne, hslash⟩ hdot hdd

theorem Forest.Short.find (hs : t.Short len) (hf : t.find name = some (a, child)) : len + 1 + name.length < 192 := by
  induction t with
  | nil => cases hf
  | node b c next _ ihn =>
    unfold Forest.find at hf
    split at hf
    · next hname => exact hname ▸ hs.1
    · exact ihn hs.2.2 hf

theorem IsTree.length_render (h : IsTree s r t) (hf : follow (r, t) path = some (a, child)) : (render path).length < 192 := by
  induction path using List.reverseRecOn with
  | nil => exact Nat.zero_lt_succ _
  | append_singleton path name _ =>
    obtain ⟨b, sib, hp, hfind⟩ := follow_concat hf
    have hlen := (h.short_at hp).find hfind
    rw [render_concat, List.length_append, List.length_cons]
    omega

/-! ## Climbing -/

/-- The names of the nodes in `chain`. -/
def Named (s : Nodes) (chain : List ℕ) (names : List Name) : Prop :=
  List.Forall₂ (fun c name => ∃ n, s.heap c = some n ∧ n.name = name) chain names

/-- What the heap has of a node that is not the root. -/
theorem IsTree.record_concat (h : IsTree s r t) (hf : follow (r, t) (path ++ [name]) = some (a, child)) :
    ∃ b sib n, follow (r, t) path = some (b, sib) ∧ s.heap a.inode = some n ∧ n.parent = b.inode ∧ n.name = name := by
  obtain ⟨b, sib, hp, hfind⟩ := follow_concat hf
  obtain ⟨-, hrep, -⟩ := (follow_root hp).rep h.rep
  obtain ⟨n, hn, hparent, -⟩ := (find_sibling hrep hfind).record
  obtain ⟨-, -, m, hm, hname, -⟩ := (follow_root hf).rep h.rep
  obtain rfl := Option.some.inj (hn.symm.trans hm)
  exact ⟨b, sib, n, hp, hn, hparent, hname.trans (find_name hfind).1⟩

theorem IsTree.root_record (h : IsTree s r t) : ∃ n, s.heap s.root = some n ∧ n.parent = 0 := by
  rw [h.root]
  exact ⟨_, h.rep.2.1, rfl⟩

/-- `chain` gets the nodes of the path from its end on, as many as there is room for. -/
theorem IsTree.climb (h : IsTree s r t) (hf : follow (r, t) path = some (a, child)) (left : ℕ) :
    ∃ chain, s.climb left a.inode = some chain ∧ Named s chain (path.reverse.take left) := by
  have hne := ((follow_root hf).rep h.rep).1
  induction path using List.reverseRecOn generalizing a child left with
  | nil =>
    obtain ⟨rfl, rfl⟩ := Prod.mk.inj (Option.some.inj hf)
    obtain ⟨n, hn, hparent⟩ := h.root_record
    rw [h.root] at hn
    refine ⟨[], ?_, by simp [Named]⟩
    cases left with
    | zero => simp [Nodes.climb, hn]
    | succ left => simp [Nodes.climb, hn, hparent]
  | append_singleton path name ih =>
    obtain ⟨b, sib, n, hp, hn, hparent, hname⟩ := h.record_concat hf
    have hb := ((follow_root hp).rep h.rep).1
    cases left with
    | zero => exact ⟨[], by simp [Nodes.climb, hn], by simp [Named]⟩
    | succ left =>
      obtain ⟨chain, hclimb, hnamed⟩ := ih hp left hb
      refine ⟨a.inode :: chain, ?_, ?_⟩
      · simp [Nodes.climb, hne, hn, hparent, hb, hclimb]
      · rw [List.reverse_concat, List.take_succ_cons]
        exact .cons ⟨n, hn, hname⟩ hnamed

/-- The names are written one after the other, or the buffer is too small for them. -/
theorem writeNames_named {chain : List ℕ} (h : Named s chain names) {out : List UInt8} (hout : out.length < size) :
    s.writeNames size chain out = some (if (out ++ render names).length < size then some (out ++ render names) else none) := by
  induction h generalizing out with
  | nil => simp [Nodes.writeNames, render, hout]
  | @cons c name chain names hc _ ih =>
    obtain ⟨n, hn, rfl⟩ := hc
    have hrender : out ++ render (n.name :: names) = (out ++ slash :: n.name) ++ render names := by simp [render]
    rw [Nodes.writeNames, hn, Option.bind_some, hrender]
    split
    · next hlong =>
      rw [if_neg]
      simp only [List.length_append, List.length_cons]
      omega
    · next hfit =>
      apply ih
      simp only [List.length_append, List.length_cons]
      omega

/-- What `vfs_path_of` returns: at most the last 32 names. -/
theorem IsTree.vfsPathOf (h : IsTree s r t) (hf : follow (r, t) path = some (a, child)) (hsize : size ≠ 0) :
    s.vfsPathOf a.inode size = some (if path = [] then some ([slash].take (size - 1))
      else if (render (path.drop (path.length - 32))).length < size then some (render (path.drop (path.length - 32))) else none) := by
  have hne := ((follow_root hf).rep h.rep).1
  obtain ⟨chain, hclimb, hnamed⟩ := h.climb hf 32
  rw [List.take_reverse] at hnamed
  have hlength := hnamed.length_eq
  simp only [List.length_reverse, List.length_drop] at hlength
  have hempty : chain = [] ↔ path = [] := by
    rw [← List.length_eq_zero_iff, ← List.length_eq_zero_iff]
    omega
  rw [Nodes.vfsPathOf, if_neg (not_or.mpr ⟨hne, hsize⟩), hclimb, Option.bind_some]
  by_cases hnil : path = []
  · rw [if_pos hnil, if_pos (hempty.mpr hnil)]
  · rw [if_neg hnil, if_neg (mt hempty.mp hnil)]
    have hnamed' : Named s chain.reverse (path.drop (path.length - 32)) := by
      rw [← List.reverse_reverse (path.drop _)]
      exact List.forall₂_reverse_iff.mpr hnamed
    exact writeNames_named hnamed' (Nat.pos_of_ne_zero hsize)

theorem IsTree.below (h : IsTree s r t) (hf : follow (r, t) path = some (a, child)) : s.Below path.length a.inode := by
  induction path using List.reverseRecOn generalizing a child with
  | nil =>
    obtain ⟨rfl, rfl⟩ := Prod.mk.inj (Option.some.inj hf)
    rw [← h.root]
    exact .root
  | append_singleton path name ih =>
    obtain ⟨b, sib, n, hp, hn, hparent, -⟩ := h.record_concat hf
    rw [List.length_append]
    apply Nodes.Below.child hn
    · rw [hparent]
      exact ((follow_root hp).rep h.rep).1
    · rw [hparent]
      exact ih hp

theorem IsTree.below_unique (h : IsTree s r t) {k l : ℕ} (hk : s.Below k x) (hl : s.Below l x) : k = l := by
  obtain ⟨m, hm, hzero⟩ := h.root_record
  induction hk generalizing l with
  | root =>
    cases hl with
    | root => rfl
    | child hx hne _ =>
      obtain rfl := Option.some.inj (hm.symm.trans hx)
      exact absurd hzero hne
  | child hx hne _ ih =>
    cases hl with
    | root =>
      obtain rfl := Option.some.inj (hm.symm.trans hx)
      exact absurd hzero hne
    | child hx' _ hl =>
      obtain rfl := Option.some.inj (hx.symm.trans hx')
      rw [ih hl]

/-! ## Looking up -/

/-- A lookup that finds a node has followed a path. -/
theorem IsTree.lookup_found (h : IsTree s r t) {cwd : Option (List UInt8)} {p : List UInt8} (hlook : s.vfsLookup cwd p = some x)
    (hx : x ≠ 0) : ∃ absolute a child, abspath cwd p = some absolute ∧ follow (r, t) (segments absolute) = some (a, child) ∧
      a.inode = x := by
  unfold Nodes.vfsLookup at hlook
  cases habs : abspath cwd p with
  | none =>
    rw [habs] at hlook
    exact absurd (Option.some.inj hlook).symm hx
  | some absolute =>
    rw [habs] at hlook
    dsimp only at hlook
    rw [h.lookupFrom] at hlook
    have hpointer := Option.some.inj hlook
    cases hf : follow (r, t) (segments absolute) with
    | none =>
      rw [hf] at hpointer
      exact absurd hpointer.symm hx
    | some found =>
      rw [hf] at hpointer
      exact ⟨absolute, found.1, found.2, rfl, hf, hpointer⟩

theorem IsTree.reached_lookup (h : IsTree s r t) {cwd : Option (List UInt8)} {p : List UInt8} (hlook : s.vfsLookup cwd p = some x)
    (hx : x ≠ 0) : Reached s x := by
  obtain ⟨absolute, a, child, -, hf, rfl⟩ := h.lookup_found hlook hx
  exact (h.reached_iff _).mpr (follow_root hf).inode_mem

/-- The lookups that find a node are those of its path. -/
theorem IsTree.lookup_iff (h : IsTree s r t) (hf : follow (r, t) path = some (a, child)) {cwd : Option (List UInt8)}
    {p : List UInt8} : s.vfsLookup cwd p = some a.inode ↔ ∃ absolute, abspath cwd p = some absolute ∧ segments absolute = path := by
  constructor
  · intro hlook
    obtain ⟨absolute, a', child', habs, hf', he⟩ := h.lookup_found hlook ((follow_root hf).rep h.rep).1
    exact ⟨absolute, habs, path_unique h.nodup hf' hf he⟩
  · rintro ⟨absolute, habs, rfl⟩
    rw [Nodes.vfsLookup, habs]
    dsimp only
    rw [h.lookupFrom, hf]
    rfl

theorem stack_root (n : ℕ) : Stack ([slash].take n) [] ∧ ([slash].take n).length < 192 := by
  cases n with
  | zero => exact ⟨stack_nil, Nat.zero_lt_succ _⟩
  | succ n =>
    rw [List.take_succ_cons, List.take_nil]
    exact ⟨⟨stack_nil.1, Or.inr rfl⟩, by decide⟩

/-- A path of at most 32 names is written in full and leads back. -/
theorem IsTree.inverse (h : IsTree s r t) (hf : follow (r, t) path = some (a, child)) (hdepth : path.length ≤ 32) :
    PathsInverse s a.inode := by
  have hclean := h.clean hf
  have hlen := h.length_render hf
  have hall : path.drop (path.length - 32) = path := by
    rw [Nat.sub_eq_zero_of_le hdepth, List.drop_zero]
  have hwritten : ∀ size, (written path).length < size → s.vfsPathOf a.inode size = some (some (written path)) := by
    intro size hsize
    rw [h.vfsPathOf hf (by omega), hall]
    unfold written at hsize ⊢
    split
    · next hnil =>
      rw [if_pos hnil] at hsize
      rw [List.take_of_length_le]
      simp only [List.length_singleton] at hsize ⊢
      omega
    · next hne =>
      rw [if_neg hne] at hsize
      rw [if_pos hsize]
  refine ⟨?_, ?_, ?_⟩
  · intro size out hout
    apply (h.lookup_iff hf).mpr
    have hsize : size ≠ 0 := by
      rintro rfl
      simp [Nodes.vfsPathOf] at hout
    rw [h.vfsPathOf hf hsize, hall] at hout
    have hstack : Stack out path ∧ out.length < 192 := by
      split at hout
      · next hnil =>
        obtain rfl := Option.some.inj (Option.some.inj hout)
        rw [hnil]
        exact stack_root _
      · split at hout
        · obtain rfl := Option.some.inj (Option.some.inj hout)
          exact ⟨⟨hclean, Or.inl rfl⟩, hlen⟩
        · cases hout
    exact abspath_none_stack hstack.1 hstack.2
  · intro cwd p hcwd hlook size hsize
    obtain ⟨absolute, habs, hsegs⟩ := (h.lookup_iff hf).mp hlook
    have hform : canonicalForm cwd p = written path := by
      rw [canonicalForm, ← abspath_resolves hcwd habs, hsegs]
    rw [hform] at hsize ⊢
    exact hwritten size hsize
  · intro cwd p absolute habs hlook size hsize
    obtain ⟨absolute', habs', hsegs⟩ := (h.lookup_iff hf).mp hlook
    obtain rfl := Option.some.inj (habs.symm.trans habs')
    rw [hsegs] at hsize ⊢
    exact hwritten size hsize

theorem length_render_drop (path : List Name) (k : ℕ) : (render (path.drop k)).length ≤ (render path).length := by
  conv_rhs => rw [← List.take_append_drop k path, render_append]
  rw [List.length_append]
  exact Nat.le_add_left _ _

/-- Of a longer path the first names are missing, and what is left leads elsewhere. -/
theorem IsTree.not_inverse (h : IsTree s r t) (hf : follow (r, t) path = some (a, child)) (hdepth : 32 < path.length) :
    ¬PathsInverse s a.inode := by
  intro hinv
  have hlen := h.length_render hf
  have hdrop := length_render_drop path (path.length - 32)
  have hclean : Clean (path.drop (path.length - 32)) := fun name hname => h.clean hf name (List.mem_of_mem_drop hname)
  have hne : path ≠ [] := List.ne_nil_of_length_pos (by omega)
  have hout := h.vfsPathOf hf (show 192 ≠ 0 by decide)
  rw [if_neg hne, if_pos (by omega)] at hout
  obtain ⟨absolute, habs, hsegs⟩ := (h.lookup_iff hf).mp (hinv.lookup_path _ _ hout)
  obtain ⟨absolute', habs', hsegs'⟩ := abspath_none_stack ⟨hclean, Or.inl rfl⟩ (by omega)
  obtain rfl := Option.some.inj (habs.symm.trans habs')
  have hlength := congrArg List.length (hsegs.symm.trans hsegs')
  rw [List.length_drop] at hlength
  omega

end paths

/-- Paths and nodes are inverse at exactly the nodes that are at most 32 levels below the root. -/
theorem paths_inverse_iff {p : ℕ} (hp : p ≠ 0) (ops : List NodeOp) (hcwd : ∀ op ∈ ops, op.CwdOk) {s : Nodes}
    (hrun : runOps (vfsInit p) ops = some s) {x : ℕ} (hx : Reached s x) :
    PathsInverse s x ↔ ∃ k ≤ 32, s.Below k x := by
  obtain ⟨s', t, hrun', h⟩ := (vfsInit_isTree hp).runOps ops hcwd
  obtain rfl := Option.some.inj (hrun.symm.trans hrun')
  obtain ⟨path, a, child, hf, rfl⟩ := h.exists_path hx
  constructor
  · intro hinv
    refine ⟨path.length, ?_, h.below hf⟩
    by_contra hdepth
    exact h.not_inverse hf (by omega) hinv
  · rintro ⟨k, hk, hbelow⟩
    rw [h.below_unique hbelow (h.below hf)] at hk
    exact h.inverse hf hk

/-- `/a` and `c` in it. -/
def nestedOps : List NodeOp := [.create none [47, 97] true 2 true, .create (some [47, 97]) [99] false 3 true]

theorem nestedOps_cwdOk : ∀ op ∈ nestedOps, op.CwdOk := by
  have ha : CwdOk (some [47, 97]) := by
    intro dir h
    obtain rfl := Option.some.inj h
    exact ⟨[[97]], by decide, Or.inl rfl⟩
  simpa [nestedOps, NodeOp.CwdOk] using ⟨cwdOk_none, ha⟩

theorem paths_inverse_iff_nested : ∃ s, runOps (vfsInit 1) nestedOps = some s ∧ PathsInverse s 3 := by
  obtain ⟨s, t, hrun, h⟩ := (vfsInit_isTree (show 1 ≠ 0 by decide)).runOps nestedOps nestedOps_cwdOk
  -- what can be computed of the nodes
  have hcalc : ((runOps (vfsInit 1) nestedOps).map fun s => (s.root, s.heap 2, s.heap 3, s.vfsLookup none [47, 97, 47, 99])) =
      some (1, some ⟨[97], true, false, 1, 3, 0⟩, some ⟨[99], false, false, 2, 0, 0⟩, some 3) := by
    decide
  rw [hrun] at hcalc
  obtain ⟨hroot, hcalc⟩ := Prod.mk.inj (Option.some.inj hcalc)
  obtain ⟨h₂, hcalc⟩ := Prod.mk.inj hcalc
  obtain ⟨h₃, hlook⟩ := Prod.mk.inj hcalc
  have hbelow : s.Below 2 3 := by
    apply Nodes.Below.child h₃ (by decide)
    apply Nodes.Below.child h₂ (by decide)
    exact hroot ▸ .root
  exact ⟨s, hrun, (paths_inverse_iff (by decide) nestedOps nestedOps_cwdOk hrun (h.reached_lookup hlook (by decide))).mpr
    ⟨2, by decide, hbelow⟩⟩

/-- `/a`, `/a/a` and so on, 33 directories. -/
def deepOps : List NodeOp :=
  (List.range 33).map (fun k => .create none (render (List.replicate (k + 1) [97])) true (k + 2) true)

/-- The path of the last one is that of the one before. -/
theorem paths_not_inverse : (∀ op ∈ deepOps, op.CwdOk) ∧
    ∃ s, runOps (vfsInit 1) deepOps = some s ∧ Reached s 34 ∧ ¬PathsInverse s 34 := by
  have hcwd : ∀ op ∈ deepOps, op.CwdOk := by
    intro op hop
    obtain ⟨k, -, rfl⟩ := List.mem_map.mp hop
    exact cwdOk_none
  obtain ⟨s, t, hrun, h⟩ := (vfsInit_isTree (show 1 ≠ 0 by decide)).runOps deepOps hcwd
  have hcalc : ((runOps (vfsInit 1) deepOps).map fun s => (s.vfsPathOf 34 192,
        s.vfsLookup none (render (List.replicate 32 [97])), s.vfsLookup none (render (List.replicate 33 [97])))) =
      some (some (some (render (List.replicate 32 [97]))), some 33, some 34) := by
    decide +kernel
  rw [hrun] at hcalc
  obtain ⟨hpath, hcalc⟩ := Prod.mk.inj (Option.some.inj hcalc)
  obtain ⟨hback, hlook⟩ := Prod.mk.inj hcalc
  refine ⟨hcwd, s, hrun, h.reached_lookup hlook (by decide), fun hinv => ?_⟩
  have hsame := hinv.lookup_path 192 _ hpath
  rw [hback] at hsame
  exact absurd hsame (by decide)

end SifarOS.Vfs
