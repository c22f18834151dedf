import SifarOS.RamFs
import SifarOS.VfsRefinement
import SifarOS.FileIsolation

/-! # Read-only files

What the calls of the VFS do to a tree and to the driver behind it, seen from a read-only file
somewhere in it. -/
namespace SifarOS.Vfs
open ByteMemory SifarFs Forest

variable {a b new parent : Attrs} {r : Attrs} {t child children : Forest} {names p : List Name}

/-! ## Paths that a change leaves alone -/

section paths

variable {change : Attrs → Forest → Attrs × Forest}

theorem look_modify_of_not_on_way (hn : ∀ a c, (change a c).1.name = a.name) (h : ¬names <+: p) :
    look (modifyNode change (r, t) names) p = look (r, t) p := by
  induction p generalizing r t names with
  | nil =>
    cases names with
    | nil => exact absurd List.nil_prefix h
    | cons name rest => rfl
  | cons n p ih =>
    cases names with
    | nil => exact absurd List.nil_prefix h
    | cons name rest =>
      simp only [modifyNode]
      rw [look_cons, look_cons, find_modify hn]
      split
      · by_cases he : name = n
        · subst he
          have hrest : ¬rest <+: p := fun hp => h (List.cons_prefix_cons.mpr ⟨rfl, hp⟩)
          rw [if_pos rfl]
          cases t.find name with
          | none => rfl
          | some d => exact ih hrest
        · rw [if_neg he]
      · rfl

theorem look_remove_of_not_on_way (h : ¬names <+: p) : look (r, t.remove names) p = look (r, t) p := by
  induction p generalizing r t names with
  | nil => rfl
  | cons n p ih =>
    cases names with
    | nil => exact absurd List.nil_prefix h
    | cons name rest =>
      have hrest : name = n → ¬rest <+: p := fun he hp => h (List.cons_prefix_cons.mpr ⟨he, hp⟩)
      have hnil : name = n → rest ≠ [] := by
        rintro he rfl
        exact hrest he List.nil_prefix
      rw [look_cons, look_cons, find_remove t hnil]
      split
      · by_cases he : name = n
        · rw [if_pos he]
          cases t.find n with
          | none => rfl
          | some d => exact ih (hrest he)
        · rw [if_neg he]
      · rfl

/-- Below a directory that has no child of the new name, all that was found is found again. -/
theorem look_modify_link (hf : follow (r, t) names = some (parent, children)) (hnew : children.find new.name = none)
    (hp : look (r, t) p = some b) : look (modifyNode (fun a c => (a, c.link new .nil)) (r, t) names) p = some b := by
  induction p generalizing r t names with
  | nil =>
    rw [← hp]
    cases names <;> rfl
  | cons n p ih =>
    cases names with
    | nil =>
      obtain ⟨rfl, rfl⟩ := Prod.mk.inj (Option.some.inj hf)
      simp only [modifyNode]
      rw [look_cons] at hp ⊢
      have hne : new.name ≠ n := by
        rintro rfl
        rw [hnew] at hp
        split at hp <;> cases hp
      rw [find_link hnew, if_neg hne]
      exact hp
    | cons name rest =>
      obtain ⟨-, b₁, c₁, hfind, hrest⟩ := follow_cons hf
      simp only [modifyNode]
      rw [look_cons] at hp ⊢
      rw [find_modify (fun _ _ => rfl)]
      split at hp
      · rename_i hdir
        rw [if_pos hdir]
        by_cases he : name = n
        · subst he
          rw [if_pos rfl]
          rw [hfind] at hp ⊢
          exact ih hrest hp
        · rwa [if_neg he]
      · cases hp

theorem follow_modifyNode (hn : ∀ a c, (change a c).1.name = a.name)
    (hf : follow (r, t) names = some (a, child)) : follow (modifyNode change (r, t) names) names = some (change a child) := by
  induction names generalizing r t with
  | nil =>
    obtain ⟨rfl, rfl⟩ := Prod.mk.inj (Option.some.inj hf)
    rfl
  | cons name rest ih =>
    obtain ⟨hdir, b, c, hfind, hrest⟩ := follow_cons hf
    have hstep : follow (modifyNode change (r, t) (name :: rest)) (name :: rest) =
        if r.dir then ((t.modify change (name :: rest)).find name).bind (follow · rest) else none := rfl
    rw [hstep, if_pos hdir, find_modify hn, if_pos rfl, hfind]
    exact ih hrest

/-- Nothing is found below a file. -/
theorem not_prefix_of_file (hf : follow (r, t) names = some (a, child)) (hfile : a.dir = false)
    (hp : look (r, t) p = some b) (hne : p ≠ names) : ¬names <+: p := by
  rintro ⟨q, rfl⟩
  cases q with
  | nil => exact hne (List.append_nil _)
  | cons n q =>
    unfold look at hp
    rw [follow_append, hf, Option.bind_some, follow, hfile] at hp
    cases hp

/-- What is found below a node is one of the nodes below it. -/
theorem mem_of_on_way (hf : follow (r, t) names = some (a, child)) (hp : look (r, t) p = some b) (hne : p ≠ names)
    (h : names <+: p) : b ∈ child.attrs := by
  obtain ⟨q, rfl⟩ := h
  obtain ⟨cb, hfb⟩ := look_follow hp
  rw [follow_append, hf, Option.bind_some] at hfb
  cases q with
  | nil => exact absurd (List.append_nil _) hne
  | cons n q =>
    obtain ⟨-, d, e, hfd, hrest⟩ := follow_cons hfb
    obtain ⟨h₁, h₂⟩ := find_mem hfd
    have hb := (follow_mem hrest).1
    simp only [attrs_node, attrs_nil, List.append_nil, List.mem_cons] at hb
    rcases hb with rfl | hb
    · exact h₁
    · exact h₂ b hb

/-- The directory of a node is none of the nodes below it. -/
theorem parent_of_last (h : (Forest.node r t .nil).inodes.Nodup) (hf : follow (r, t) names = some (a, child)) (hne : names ≠ [])
    (hp : follow (r, t) names.dropLast = some (parent, children)) :
    parent.dir = true ∧ parent.inode ≠ a.inode ∧ parent.inode ∉ child.inodes := by
  rw [(List.dropLast_append_getLast hne).symm, follow_append, hp] at hf
  obtain ⟨hdir, b, c, hfind, hend⟩ := follow_cons hf
  obtain ⟨rfl, rfl⟩ := Prod.mk.inj (Option.some.inj hend)
  obtain ⟨hpc, -⟩ := nodup_node (follow_nodup h hp)
  obtain ⟨h₁, h₂⟩ := find_mem hfind
  refine ⟨hdir, fun he => hpc (he ▸ mem_inodes h₁), fun hc => ?_⟩
  obtain ⟨d, hd, he⟩ := List.mem_map.mp hc
  exact hpc (he ▸ mem_inodes (h₂ d hd))

/-- The nodes that are there are those that were taken out and those that stay. -/
theorem attrs_remove (h : (Forest.node r t .nil).inodes.Nodup) (hf : follow (r, t) names = some (a, child)) (hne : names ≠ []) :
    (Forest.node r t .nil).attrs.Perm ((a :: child.attrs) ++ (Forest.node r (t.remove names) .nil).attrs) := by
  obtain ⟨-, -, htn, -, -⟩ := nodup_node h
  have hfound : Found a child t names := by
    obtain ⟨first, rest, rfl⟩ := List.exists_cons_of_ne_nil hne
    exact found_of_follow hf
  simp only [attrs_node, attrs_nil, List.append_nil]
  rw [remove_eq htn hfound]
  exact ((attrs_dropNode htn hfound).cons r).trans List.perm_middle.symm

end paths

/-! ## Drivers keep files apart -/

/-- The files in `kept` read as before. -/
def Reads {σ : Type} (ops : FsOps σ) (kept : ℕ → Prop) (s s' : σ) : Prop :=
  ∀ b : Attrs, kept b.inode → ∀ offset length, ops.read s' b offset length = ops.read s b offset length

/-- A driver that keeps its files apart. `Keeps s used` says that the state is in order and that it
knows the nodes in `used`; `Fits` is asked of the offset and the length of a write, and `SizeOk` holds
of the sizes of nodes. -/
structure Isolating {σ : Type} (ops : FsOps σ) (Keeps : σ → (ℕ → Prop) → Prop) (Fits : ℕ → ℕ → Prop)
    (SizeOk : ℕ → Prop) : Prop where
  mono : ∀ {s used used'}, Keeps s used → (∀ x, used' x → used x) → Keeps s used'
  setClock : ∀ {s used} clock, Keeps s used → Keeps (ops.setClock clock s) used ∧ Reads ops used s (ops.setClock clock s)
  write : ∀ {s used} now (a : Attrs) offset data, Keeps s used → used a.inode → SizeOk a.size → Fits offset data.length →
    Keeps (ops.write now s a offset data).1.1 used ∧ SizeOk (ops.write now s a offset data).1.2 ∧
      Reads ops (fun x => used x ∧ x ≠ a.inode) s (ops.write now s a offset data).1.1
  truncate : ∀ {s used} now (a : Attrs) length, Keeps s used → used a.inode → SizeOk a.size → length < 4294967296 →
    Keeps (ops.truncate now s a length).1.1 used ∧ SizeOk (ops.truncate now s a length).1.2 ∧
      Reads ops (fun x => used x ∧ x ≠ a.inode) s (ops.truncate now s a length).1.1
  create : ∀ {s used} now (parent : Attrs) name dir, Keeps s used → used parent.inode →
    Keeps (ops.create now s parent name dir).1 used ∧
      Reads ops (fun x => used x ∧ x ≠ parent.inode) s (ops.create now s parent name dir).1 ∧
      ∀ number, (ops.create now s parent name dir).2 = some number →
        ¬used number ∧ Keeps (ops.create now s parent name dir).1 (fun x => x = number ∨ used x)
  destroy : ∀ {s used} parent name number, Keeps s used → used parent → used number → parent ≠ number →
    Keeps (ops.destroy s parent name number) (fun x => used x ∧ x ≠ number) ∧
      Reads ops (fun x => used x ∧ x ≠ number ∧ x ≠ parent) s (ops.destroy s parent name number)
  size_zero : SizeOk 0
  fits : ∀ {size length}, SizeOk size → length ≤ bufferMax → Fits size length

/-! ### SifarFS -/

/-- The disk is in order and the nodes have allocated inodes. -/
def SfsKeeps (f : Fs) (used : ℕ → Prop) : Prop := f.Exclusive ∧ ∀ n, used n → f.Live n

theorem SfsKeeps.reworked {f f' : Fs} {used : ℕ → Prop} {n : ℕ} (h : SfsKeeps f used) (hn : used n) (hr : Reworked n f f') :
    SfsKeeps f' used ∧ Reads sfsOps (fun x => used x ∧ x ≠ n) f f' := by
  refine ⟨⟨hr.exclusive, fun x hx => ?_⟩, fun b hb => hr.untouched.read b.inode hb.2 (h.2 _ hb.1)⟩
  by_cases he : x = n
  · exact he ▸ hr.live (h.2 n hn)
  · exact (hr.untouched.live he).mpr (h.2 x hx)

theorem exclusive_setClock {f : Fs} (E : f.Exclusive) (clock : ℕ) : Fs.Exclusive { f with clock := clock } := by
  obtain ⟨T, last, H⟩ := E
  exact ⟨T, last, ⟨H.sound.geometry, H.sound.owns, H.sound.free_eq, H.sound.synced⟩, H.table, H.count_lt, H.empty⟩

theorem sfs_isolating : Isolating sfsOps SfsKeeps (fun _ _ => True) (fun _ => True) where
  mono := fun h hu => ⟨h.1, fun x hx => h.2 x (hu x hx)⟩
  setClock := fun {f used} clock h => by
    refine ⟨⟨exclusive_setClock h.1 clock, h.2⟩, fun b hb => ?_⟩
    exact fileRead_congr (f := f) (g := { f with clock := clock }) (h.2 _ hb).1 (h.2 _ hb).1 rfl (fun _ => rfl)
      (fun _ _ => SameOn.refl _ _ _)
  write := fun now a offset data h ha _ _ => by
    obtain ⟨h₁, h₂⟩ := h.reworked ha (h.1.fileWrite (h.2 _ ha) offset data)
    exact ⟨h₁, trivial, h₂⟩
  truncate := fun now a length h ha _ hlen => by
    obtain ⟨h₁, h₂⟩ := h.reworked ha (h.1.fileTruncate (h.2 _ ha) hlen)
    exact ⟨h₁, trivial, h₂⟩
  create := fun {f used} now parent name dir h hp => by
    have hm := h.1.opCreate (h.2 _ hp) name dir
    have hlive : ∀ x, used x → (f.opCreate parent.inode name dir).1.Live x := by
      intro x hx
      by_cases he : x = parent.inode
      · exact he ▸ hm.parent_live
      · exact (hm.untouched.live (not_or.mpr ⟨he, not_not.mpr (h.2 x hx)⟩)).mpr (h.2 x hx)
    refine ⟨⟨hm.exclusive, hlive⟩, fun b hb => ?_, fun number hnum => ?_⟩
    · exact hm.untouched.read b.inode (not_or.mpr ⟨hb.2, not_not.mpr (h.2 _ hb.1)⟩) (h.2 _ hb.1)
    · obtain ⟨hdead, hnew⟩ := hm.number number hnum
      exact ⟨fun hu => hdead (h.2 _ hu), hm.exclusive, fun x hx => hx.elim (fun he => he ▸ hnew) (hlive x)⟩
  destroy := fun {f used} parent name number h hp hn hne => by
    obtain ⟨hE, hun, hlive⟩ := h.1.opDestroy (h.2 _ hp) (h.2 _ hn) hne name
    refine ⟨⟨hE, fun x hx => ?_⟩, fun b hb => ?_⟩
    · by_cases he : x = parent
      · exact he ▸ hlive
      · exact (hun.live (not_or.mpr ⟨hx.2, he⟩)).mpr (h.2 x hx.1)
    · exact hun.read b.inode (not_or.mpr hb.2) (h.2 _ hb.1)
  size_zero := trivial
  fits := fun _ _ => trivial

/-! ### ramfs -/

namespace RamFs

theorem le_doubled {needed fuel capacity : ℕ} (h₀ : 0 < capacity) (h : needed ≤ capacity * 2 ^ fuel) :
    needed ≤ doubled needed fuel capacity := by
  induction fuel generalizing capacity with
  | zero => simpa [doubled] using h
  | succ fuel ih =>
    unfold doubled
    split
    · refine ih (by omega) ?_
      rwa [Nat.mul_comm 2 capacity, Nat.mul_assoc, ← Nat.pow_succ']
    · omega

theorem doubled_le (needed fuel capacity : ℕ) : doubled needed fuel capacity ≤ max capacity (2 * needed) := by
  induction fuel generalizing capacity with
  | zero => exact Nat.le_max_left _ _
  | succ fuel ih =>
    unfold doubled
    split
    · have := ih (2 * capacity)
      omega
    · exact Nat.le_max_left _ _

/-- No buffer is longer than this. -/
def maxBuffer : ℕ := 8388608

theorem ensureCapacity_some {bytes bytes' : List UInt8} {needed : ℕ} {room : Bool}
    (h : ensureCapacity bytes needed room = some bytes') (hle : bytes.length ≤ maxBuffer) :
    needed ≤ bytes'.length ∧ bytes'.length ≤ maxBuffer := by
  unfold maxBuffer at hle ⊢
  unfold ensureCapacity at h
  split at h
  · rename_i hfit
    exact Option.some.inj h ▸ ⟨hfit, hle⟩
  split at h
  · cases h
  split at h
  · cases h
  rename_i hfit hmax _
  unfold maxFile at hmax
  dsimp only at h
  generalize hc : (if bytes.length = 0 then 64 else bytes.length) = capacity at h
  have hpos : 0 < capacity ∧ capacity ≤ 8388608 := by
    split at hc <;> omega
  have hge : needed ≤ doubled needed 32 capacity :=
    le_doubled hpos.1 (Nat.le_trans (by omega) (Nat.le_mul_of_pos_left _ hpos.1))
  have hup := doubled_le needed 32 capacity
  rw [← Option.some.inj h, List.length_append, List.length_replicate]
  omega

/-- The numbers in use were given out, the buffers have the lengths they can get, and no copy has left
its buffer. -/
structure Keeps (s : RamFs) (used : ℕ → Prop) : Prop where
  next : ∀ n, used n → n < s.next
  length_le : ∀ n bytes, s.backend n = some bytes → bytes.length ≤ maxBuffer
  inside : s.overrun = false

variable {s : RamFs} {used : ℕ → Prop} {n : ℕ}

theorem reads_update (value : Option (List UInt8)) (s' : RamFs) (hs : s'.backend = Function.update s.backend n value) :
    Reads ops (fun x => used x ∧ x ≠ n) s s' := by
  intro b hb offset length
  show some (s'.read b offset length) = some (s.read b offset length)
  unfold RamFs.read
  rw [hs, Function.update_of_ne hb.2]

theorem Keeps.store (h : Keeps s used) {bytes data : List UInt8} {offset : ℕ} (hfit : offset + data.length ≤ bytes.length)
    (hle : bytes.length ≤ maxBuffer) (n : ℕ) : Keeps (s.store n bytes offset data) used := by
  refine ⟨h.next, fun x bytes' hx => ?_, ?_⟩
  · unfold RamFs.store at hx
    dsimp only at hx
    by_cases he : x = n
    · rw [he, Function.update_self] at hx
      rw [← Option.some.inj hx]
      unfold overlay
      simp only [List.length_append, List.length_take, List.length_drop]
      omega
    · rw [Function.update_of_ne he] at hx
      exact h.length_le x bytes' hx
  · unfold RamFs.store
    simp [h.inside, Nat.not_lt.mpr hfit]

theorem isolating : Isolating ops Keeps (fun offset length => offset + length < 4294967296) (fun size => size ≤ maxBuffer) where
  mono := fun h hu => ⟨fun x hx => h.next x (hu x hx), h.length_le, h.inside⟩
  setClock := fun _ h => ⟨h, fun _ _ _ _ => rfl⟩
  write := fun {s used} now a offset data h ha hsize hfits => by
    show Keeps (s.write now a offset data).1.1 used ∧ (s.write now a offset data).1.2 ≤ maxBuffer ∧
      Reads ops _ s (s.write now a offset data).1.1
    unfold RamFs.write
    rw [u32_of_lt hfits]
    cases hb : s.backend a.inode with
    | none => exact ⟨h, hsize, fun _ _ _ _ => rfl⟩
    | some bytes =>
      dsimp only
      cases he : ensureCapacity bytes (offset + data.length) now.buffer with
      | none => exact ⟨h, hsize, fun _ _ _ _ => rfl⟩
      | some bytes' =>
        obtain ⟨h₁, h₂⟩ := ensureCapacity_some he (h.length_le _ _ hb)
        refine ⟨h.store h₁ h₂ a.inode, ?_, reads_update _ _ rfl⟩
        dsimp only
        split
        · exact Nat.le_trans h₁ h₂
        · exact hsize
  truncate := fun {s used} now a length h ha hsize _ => by
    show Keeps (s.truncate now a length).1.1 used ∧ (s.truncate now a length).1.2 ≤ maxBuffer ∧
      Reads ops _ s (s.truncate now a length).1.1
    unfold RamFs.truncate
    cases hb : s.backend a.inode with
    | none => exact ⟨h, hsize, fun _ _ _ _ => rfl⟩
    | some bytes =>
      dsimp only
      split
      · rename_i hlt
        cases he : ensureCapacity bytes length now.buffer with
        | none => exact ⟨h, hsize, fun _ _ _ _ => rfl⟩
        | some bytes' =>
          obtain ⟨h₁, h₂⟩ := ensureCapacity_some he (h.length_le _ _ hb)
          have hfit : a.size + (List.replicate (length - a.size) (0 : UInt8)).length ≤ bytes'.length := by
            rw [List.length_replicate]
            omega
          exact ⟨h.store hfit h₂ a.inode, Nat.le_trans h₁ h₂, reads_update _ _ rfl⟩
      · rename_i hle
        exact ⟨h, Nat.le_trans (Nat.le_of_not_lt hle) hsize, fun _ _ _ _ => rfl⟩
  create := fun {s used} now parent name dir h hp => by
    -- a number is given out, with or without a buffer
    have hnew : ∀ value : Option (List UInt8), (∀ bytes, value = some bytes → bytes = []) →
        Keeps { s with backend := Function.update s.backend s.next value, next := s.next + 1 } (fun x => x = s.next ∨ used x) := by
      intro value hv
      refine ⟨fun x hx => ?_, fun x bytes hx => ?_, h.inside⟩
      · rcases hx with rfl | hx
        · exact Nat.lt_succ_self _
        · exact Nat.lt_succ_of_lt (h.next x hx)
      · dsimp only at hx
        by_cases he : x = s.next
        · rw [he, Function.update_self] at hx
          rw [hv bytes hx]
          exact Nat.zero_le _
        · rw [Function.update_of_ne he] at hx
          exact h.length_le x bytes hx
    have hfresh : ¬used s.next := fun hu => Nat.lt_irrefl _ (h.next _ hu)
    have hdone : ∀ value : Option (List UInt8), (∀ bytes, value = some bytes → bytes = []) → ∀ s',
        s' = { s with backend := Function.update s.backend s.next value, next := s.next + 1 } →
        Keeps s' used ∧ Reads ops (fun x => used x ∧ x ≠ parent.inode) s s' ∧
          ∀ number, some s.next = some number → ¬used number ∧ Keeps s' (fun x => x = number ∨ used x) := by
      rintro value hv _ rfl
      have hk := hnew value hv
      refine ⟨⟨fun x hx => hk.next x (Or.inr hx), hk.length_le, hk.inside⟩, fun b hb => ?_, fun number he => ?_⟩
      · exact reads_update value _ rfl b ⟨hb.1, fun he => hfresh (he ▸ hb.1)⟩
      · obtain rfl := Option.some.inj he
        exact ⟨hfresh, hk⟩
    show Keeps (s.create now dir).1 used ∧ Reads ops _ s (s.create now dir).1 ∧ _
    unfold RamFs.ops
    dsimp only
    unfold RamFs.create
    split
    · exact hdone none (fun _ hc => by cases hc) _ rfl
    · split
      · exact ⟨h, fun _ _ _ _ => rfl, fun _ hc => by cases hc⟩
      · exact hdone (some []) (fun _ hc => (Option.some.inj hc).symm) _ rfl
  destroy := fun {s used} parent name number h hp hn hne => by
    refine ⟨⟨fun x hx => h.next x hx.1, fun x bytes hx => ?_, h.inside⟩, fun b hb => ?_⟩
    · have hx' : Function.update s.backend number none x = some bytes := hx
      by_cases he : x = number
      · rw [he, Function.update_self] at hx'
        cases hx'
      · rw [Function.update_of_ne he] at hx'
        exact h.length_le x bytes hx'
    · exact reads_update none _ rfl b ⟨hb.1, hb.2.1⟩
  size_zero := Nat.zero_le _
  fits := fun {size length} hsize hlen => by
    unfold maxBuffer at hsize
    unfold bufferMax at hlen
    omega

end RamFs

/-! ## Calls on a volume -/

/-- No two nodes have one number, and the driver knows them all. -/
structure Volume.Ok {σ : Type} (Keeps : σ → (ℕ → Prop) → Prop) (SizeOk : ℕ → Prop) (v : Volume σ) : Prop where
  nodup : v.all.inodes.Nodup
  keeps : Keeps v.fs (· ∈ v.all.inodes)
  sizes : ∀ a ∈ v.all.attrs, SizeOk a.size

/-- Every read-only file is where it was, and reads as it did. -/
def Volume.Protects {σ : Type} (ops : FsOps σ) (v v' : Volume σ) : Prop :=
  ∀ p b, look (v.root, v.tree) p = some b → b.dir = false → b.readonly = true →
    look (v'.root, v'.tree) p = some b ∧ ∀ offset length, v'.read ops b offset length = v.read ops b offset length

section volume

variable {σ : Type} {ops : FsOps σ} {Keeps : σ → (ℕ → Prop) → Prop} {Fits : ℕ → ℕ → Prop} {SizeOk : ℕ → Prop}
  {v v' v'' : Volume σ} {s : σ}

/-- What every call leaves. -/
structure Volume.Safe (ops : FsOps σ) (Keeps : σ → (ℕ → Prop) → Prop) (SizeOk : ℕ → Prop) (v v' : Volume σ) : Prop where
  ok : v'.Ok Keeps SizeOk
  protects : v.Protects ops v'

theorem Volume.Safe.refl (h : v.Ok Keeps SizeOk) : v.Safe ops Keeps SizeOk v := ⟨h, fun _ _ hp _ _ => ⟨hp, fun _ _ => rfl⟩⟩

theorem Volume.Safe.trans (h : v.Safe ops Keeps SizeOk v') (h' : v'.Safe ops Keeps SizeOk v'') : v.Safe ops Keeps SizeOk v'' := by
  refine ⟨h'.ok, fun p b hp hfile hro => ?_⟩
  obtain ⟨h₁, h₂⟩ := h.protects p b hp hfile hro
  obtain ⟨h₃, h₄⟩ := h'.protects p b h₁ hfile hro
  exact ⟨h₃, fun offset length => (h₄ offset length).trans (h₂ offset length)⟩

theorem look_mem (h : look (v.root, v.tree) p = some b) : b.inode ∈ v.all.inodes := by
  obtain ⟨child, hf⟩ := look_follow h
  exact mem_inodes (follow_mem hf).1

theorem follow_mem_all (h : follow (v.root, v.tree) p = some (a, child)) : a ∈ v.all.attrs := (follow_mem h).1

theorem read_of_reads {kept : ℕ → Prop} (h : Reads ops kept v.fs s) (hs : v'.fs = s) (hb : kept b.inode)
    (offset length : ℕ) : v'.read ops b offset length = v.read ops b offset length := by
  unfold Volume.read
  rw [hs, h b hb offset length]

/-- The driver's state is another one. -/
theorem Volume.Ok.setFs (h : v.Ok Keeps SizeOk) (hk : Keeps s (· ∈ v.all.inodes))
    (hr : Reads ops (fun x => x ∈ v.all.inodes ∧ ∃ a ∈ v.all.attrs, a.dir = false ∧ a.inode = x) v.fs s) :
    v.Safe ops Keeps SizeOk { v with fs := s } := by
  refine ⟨⟨h.nodup, hk, h.sizes⟩, fun p b hp hfile _ => ⟨hp, read_of_reads hr rfl ?_⟩⟩
  obtain ⟨child, hf⟩ := look_follow hp
  exact ⟨look_mem hp, b, follow_mem_all hf, hfile, rfl⟩

/-- A file that is not read-only has been written. -/
theorem Volume.Ok.resized (h : v.Ok Keeps SizeOk) (hf : follow (v.root, v.tree) names = some (a, child)) (hfile : a.dir = false)
    (hro : a.readonly = false) {size : ℕ} (hk : Keeps s (· ∈ v.all.inodes)) (hsize : SizeOk size)
    (hr : Reads ops (fun x => x ∈ v.all.inodes ∧ x ≠ a.inode) v.fs s) :
    v.Safe ops Keeps SizeOk (Volume.resize { v with fs := s } names size) := by
  obtain ⟨hnode, hstate⟩ := modify_node { v with fs := s } names (fun a child => ({ a with size := size }, child))
  have hall := node_modifyNode_size h.nodup hf size
  unfold Volume.resize
  generalize Volume.modify { v with fs := s } names (fun a child => ({ a with size := size }, child)) = v' at hnode hstate ⊢
  dsimp only at hnode hstate
  rw [← hnode] at hall
  have hinodes : v'.all.inodes = v.all.inodes := by
    unfold Volume.all
    rw [hall]
    refine inodes_mapAttrs (fun b => ?_) _
    split <;> rfl
  refine ⟨⟨by rw [hinodes]; exact h.nodup, by rw [hinodes, hstate]; exact hk, fun b hb => ?_⟩, fun p b hp hfile' hro' => ?_⟩
  · unfold Volume.all at hb
    rw [hall, attrs_mapAttrs] at hb
    obtain ⟨b₀, hb₀, rfl⟩ := List.mem_map.mp hb
    split
    · exact hsize
    · exact h.sizes b₀ hb₀
  · have hne : p ≠ names := by
      rintro rfl
      unfold look at hp
      rw [hf] at hp
      obtain rfl := Option.some.inj hp
      rw [hro] at hro'
      cases hro'
    obtain ⟨cb, hfb⟩ := look_follow hp
    have hinode : b.inode ≠ a.inode := fun he => hne (path_unique h.nodup hfb hf he)
    refine ⟨?_, fun offset length => ?_⟩
    · rw [hnode, look_modify_of_not_on_way (fun _ _ => rfl) (not_prefix_of_file hf hfile hp hne)]
      exact hp
    · exact read_of_reads hr hstate ⟨look_mem hp, hinode⟩ offset length

/-- A node has been linked below a directory. -/
theorem Volume.Ok.linked (h : v.Ok Keeps SizeOk) (hf : follow (v.root, v.tree) names = some (parent, children))
    (hdir : parent.dir = true) (hnew : children.find new.name = none) (hfresh : new.inode ∉ v.all.inodes)
    (hk : Keeps s (fun x => x = new.inode ∨ x ∈ v.all.inodes)) (mono : ∀ {s used used'}, Keeps s used → (∀ x, used' x → used x) → Keeps s used')
    (hsize : SizeOk new.size) (hr : Reads ops (fun x => x ∈ v.all.inodes ∧ x ≠ parent.inode) v.fs s) :
    v.Safe ops Keeps SizeOk (Volume.modify { v with fs := s } names (fun a child => (a, child.link new .nil))) := by
  obtain ⟨hnode, hstate⟩ := modify_node { v with fs := s } names (fun a child => (a, child.link new .nil))
  have hall := node_modifyNode_link h.nodup hf new
  generalize Volume.modify { v with fs := s } names (fun a child => (a, child.link new .nil)) = v' at hnode hstate ⊢
  dsimp only at hnode hstate
  rw [← hnode] at hall
  have hperm : v'.all.attrs.Perm (new :: v.all.attrs) := by
    unfold Volume.all
    rw [hall]
    exact attrs_linkAt (mem_inodes (follow_mem hf).1) h.nodup _
  have hinodes : v'.all.inodes.Perm (new.inode :: v.all.inodes) := hperm.map Attrs.inode
  refine ⟨⟨?_, ?_, fun b hb => ?_⟩, fun p b hp hfile _ => ⟨?_, fun offset length => ?_⟩⟩
  · exact hinodes.nodup_iff.mpr (List.nodup_cons.mpr ⟨hfresh, h.nodup⟩)
  · rw [hstate]
    exact mono hk (fun x hx => List.mem_cons.mp (hinodes.mem_iff.mp hx))
  · rcases List.mem_cons.mp (hperm.mem_iff.mp hb) with rfl | hb
    · exact hsize
    · exact h.sizes b hb
  · rw [hnode]
    exact look_modify_link hf hnew hp
  · have hne : b.inode ≠ parent.inode := by
      intro he
      obtain ⟨cb, hfb⟩ := look_follow hp
      obtain rfl := eq_of_inode h.nodup (follow_mem hfb).1 (follow_mem hf).1 he
      rw [hdir] at hfile
      cases hfile
    exact read_of_reads hr hstate ⟨look_mem hp, hne⟩ offset length

variable (I : Isolating ops Keeps Fits SizeOk)
include I

theorem Isolating.setClock_safe (h : v.Ok Keeps SizeOk) (clock : ℕ) :
    v.Safe ops Keeps SizeOk { v with fs := ops.setClock clock v.fs } := by
  obtain ⟨hk, hr⟩ := I.setClock clock h.keeps
  exact h.setFs hk (fun b hb => hr b hb.1)

theorem Isolating.create_safe (h : v.Ok Keeps SizeOk) (now : Moment) (cwd : Option (List UInt8)) (path : List UInt8) (dir : Bool) :
    v.Safe ops Keeps SizeOk (v.create ops now cwd path dir).1 := by
  rcases v.create_cases ops now cwd path dir with he | ⟨parentPath, parent, children, name, ⟨-, hf, hdir, hnew, -⟩, hc⟩
  · rw [he]
    exact .refl h
  obtain ⟨hk, hr, hnumber⟩ := I.create now parent name dir h.keeps (mem_inodes (follow_mem_all hf))
  rcases hc with ⟨-, he⟩ | ⟨number, hn, he⟩
  · rw [he]
    refine h.setFs hk (fun b hb => hr b ⟨hb.1, fun hp => ?_⟩)
    -- a file is not the directory in which the entry was made
    obtain ⟨a, ha, hfile, hai⟩ := hb.2
    obtain rfl := eq_of_inode h.nodup ha (follow_mem_all hf) (hai.trans hp)
    rw [hdir] at hfile
    cases hfile
  · obtain ⟨hfresh, hk'⟩ := hnumber number hn
    rw [he]
    exact h.linked hf hdir hnew hfresh hk' I.mono I.size_zero hr

/-- `vfs_write` to a node as the caller knows it; only its size may be another one. -/
theorem Isolating.write_safe (h : v.Ok Keeps SizeOk) (now : Moment) {size : ℕ}
    (hf : follow (v.root, v.tree) names = some ({ a with size := size }, child)) (hsize : SizeOk a.size) {offset : ℕ}
    {data : List UInt8} (hfits : Fits offset data.length) :
    v.Safe ops Keeps SizeOk (v.write ops now names a offset data).1 := by
  unfold Volume.write
  by_cases hdir : a.dir = true
  · rw [if_pos hdir]
    exact .refl h
  rw [if_neg hdir]
  by_cases hro : a.readonly = true
  · rw [if_pos hro]
    exact .refl h
  rw [if_neg hro]
  have hmem := mem_inodes (follow_mem_all hf)
  obtain ⟨hk, hs, hr⟩ := I.write now a offset data h.keeps hmem hsize hfits
  exact h.resized hf (by simpa using hdir) (by simpa using hro) hk hs hr

theorem Isolating.truncate_safe (h : v.Ok Keeps SizeOk) (now : Moment)
    (hf : follow (v.root, v.tree) names = some (a, child)) (length : ℕ) (hlen : length < 4294967296) :
    v.Safe ops Keeps SizeOk (v.truncate ops now names a length).1 ∧
      ((v.truncate ops now names a length).2 = true → ∃ size child', follow
        ((v.truncate ops now names a length).1.root, (v.truncate ops now names a length).1.tree) names =
          some ({ a with size := size }, child')) := by
  unfold Volume.truncate
  by_cases hcan : a.dir = true ∨ a.readonly = true
  · rw [if_pos hcan]
    exact ⟨.refl h, fun hc => by cases hc⟩
  rw [if_neg hcan]
  simp only [not_or, Bool.not_eq_true] at hcan
  obtain ⟨hk, hs, hr⟩ := I.truncate now a length h.keeps (mem_inodes (follow_mem_all hf)) (h.sizes a (follow_mem_all hf)) hlen
  have hsafe := h.resized hf hcan.1 hcan.2 hk hs hr
  refine ⟨hsafe, fun _ => ?_⟩
  obtain ⟨hnode, -⟩ := modify_node { v with fs := (ops.truncate now v.fs a length).1.1 } names
    (fun b c => ({ b with size := (ops.truncate now v.fs a length).1.2 }, c))
  refine ⟨(ops.truncate now v.fs a length).1.2, child, ?_⟩
  dsimp only [Volume.resize]
  rw [hnode]
  exact follow_modifyNode (fun _ _ => rfl) hf

/-- `destroy_tree` of the nodes below a directory. -/
theorem Isolating.destroyForest_keeps {used : ℕ → Prop} {dir : ℕ} (hk : Keeps s used) (hd : used dir) (hnd : t.inodes.Nodup)
    (hdt : dir ∉ t.inodes) (hu : ∀ x ∈ t.inodes, used x) :
    Keeps (Volume.destroyForest ops s dir t) (fun x => used x ∧ x ∉ t.inodes) ∧
      Reads ops (fun x => used x ∧ x ∉ t.inodes ∧ x ≠ dir) s (Volume.destroyForest ops s dir t) := by
  induction t generalizing s used dir with
  | nil => exact ⟨I.mono hk (fun x hx => hx.1), fun _ _ _ _ => rfl⟩
  | node a child next ihc ihn =>
    obtain ⟨hac, han, hcn, hnn, hdisj⟩ := nodup_node hnd
    simp only [inodes_node, List.mem_cons, List.mem_append, not_or] at hdt hu
    obtain ⟨hk₁, hr₁⟩ := ihc hk (hu a.inode (Or.inl rfl)) hcn hac (fun x hx => hu x (Or.inr (Or.inl hx)))
    unfold Volume.destroyForest
    generalize Volume.destroyForest ops s a.inode child = s₁ at hk₁ hr₁ ⊢
    obtain ⟨hk₂, hr₂⟩ := I.destroy dir a.name a.inode hk₁ ⟨hd, hdt.2.1⟩ ⟨hu a.inode (Or.inl rfl), hac⟩ hdt.1
    generalize ops.destroy s₁ dir a.name a.inode = s₂ at hk₂ hr₂ ⊢
    obtain ⟨hk₃, hr₃⟩ := ihn hk₂ ⟨⟨hd, hdt.2.1⟩, hdt.1⟩ hnn hdt.2.2 (fun x hx =>
      ⟨⟨hu x (Or.inr (Or.inr hx)), fun hc => hdisj x hc hx⟩, fun he => han (he ▸ hx)⟩)
    simp only [inodes_node, List.mem_cons, List.mem_append, not_or]
    refine ⟨I.mono hk₃ (fun x hx => ⟨⟨⟨hx.1, hx.2.2.1⟩, hx.2.1⟩, hx.2.2.2⟩), fun b hb offset length => ?_⟩
    obtain ⟨hub, ⟨hba, hbc, hbn⟩, hbd⟩ := hb
    rw [hr₃ b ⟨⟨⟨hub, hbc⟩, hba⟩, hbn, hbd⟩, hr₂ b ⟨⟨hub, hbc⟩, hba, hbd⟩, hr₁ b ⟨hub, hbc, hba⟩]

/-- `destroy_tree` of the node at a path. -/
theorem Isolating.destroy_safe (h : v.Ok Keeps SizeOk) (hf : follow (v.root, v.tree) names = some (a, child)) (hroot : names ≠ [])
    (hp : follow (v.root, v.tree) names.dropLast = some (parent, children)) (hro : a.readonly = false)
    (hbelow : ∀ b ∈ child.attrs, b.dir = false → b.readonly = false) :
    v.Safe ops Keeps SizeOk
      { v with
        fs := ops.destroy (Volume.destroyForest ops v.fs a.inode child) parent.inode a.name a.inode
        tree := v.tree.remove names } := by
  obtain ⟨hdir, hpa, hpc⟩ := parent_of_last h.nodup hf hroot hp
  obtain ⟨hac, -, hcn, -, -⟩ := nodup_node (follow_nodup h.nodup hf)
  have hchild : ∀ d ∈ child.attrs, d ∈ v.all.attrs := by
    intro d hd
    unfold Volume.all
    rw [attrs_node]
    exact List.mem_cons_of_mem _ (List.mem_append_left _ ((follow_mem hf).2 d hd))
  have hused : ∀ x ∈ child.inodes, x ∈ v.all.inodes := by
    intro x hx
    obtain ⟨d, hd, rfl⟩ := List.mem_map.mp hx
    exact mem_inodes (hchild d hd)
  have hmem := mem_inodes (follow_mem_all hf)
  obtain ⟨hk₁, hr₁⟩ := I.destroyForest_keeps h.keeps hmem hcn hac hused
  obtain ⟨hk₂, hr₂⟩ := I.destroy parent.inode a.name a.inode hk₁ ⟨mem_inodes (follow_mem_all hp), hpc⟩ ⟨hmem, hac⟩ hpa
  have hperm := attrs_remove h.nodup hf hroot
  have hinodes := hperm.map Attrs.inode
  have hnd := hinodes.nodup_iff.mp h.nodup
  rw [List.map_append] at hinodes hnd
  rw [List.nodup_append] at hnd
  refine ⟨⟨hnd.2.1, I.mono hk₂ (fun x hx => ?_), fun b hb => ?_⟩, fun p b hlook hfile hrob => ?_⟩
  · have hnot : x ∉ (a :: child.attrs).map Attrs.inode := fun hc => hnd.2.2 x hc x hx rfl
    rw [List.map_cons, List.mem_cons, not_or] at hnot
    exact ⟨⟨hinodes.mem_iff.mpr (List.mem_append_right _ hx), hnot.2⟩, hnot.1⟩
  · exact h.sizes b (hperm.mem_iff.mpr (List.mem_append_right _ hb))
  -- the file is neither the node that goes nor one of those below it
  obtain ⟨cb, hfb⟩ := look_follow hlook
  have hnotbelow : b ∉ child.attrs := fun hb => by
    rw [hbelow b hb hfile] at hrob
    cases hrob
  have hne : p ≠ names := by
    rintro rfl
    rw [hf] at hfb
    obtain ⟨rfl, -⟩ := Prod.mk.inj (Option.some.inj hfb)
    rw [hro] at hrob
    cases hrob
  have hba : b.inode ≠ a.inode := fun he => hne (path_unique h.nodup hfb hf he)
  have hbc : b.inode ∉ child.inodes := by
    intro hc
    obtain ⟨d, hd, he⟩ := List.mem_map.mp hc
    obtain rfl := eq_of_inode h.nodup (hchild d hd) (follow_mem_all hfb) he
    exact hnotbelow hd
  have hbp : b.inode ≠ parent.inode := by
    intro he
    obtain rfl := eq_of_inode h.nodup (follow_mem_all hfb) (follow_mem_all hp) he
    rw [hdir] at hfile
    cases hfile
  refine ⟨?_, fun offset length => ?_⟩
  · rw [look_remove_of_not_on_way (fun hpre => hnotbelow (mem_of_on_way hf hlook hne hpre))]
    exact hlook
  · unfold Volume.read
    dsimp only
    rw [hr₂ b ⟨⟨look_mem hlook, hbc⟩, hba, hbp⟩, hr₁ b ⟨look_mem hlook, hbc, hba⟩]

/-- `vfs_unlink` of a node that has no read-only file below it. -/
theorem Isolating.unlink_safe (h : v.Ok Keeps SizeOk) {cwd : Option (List UInt8)} {path : List UInt8}
    (hspare : ∀ names a child, v.lookup cwd path = some (names, a, child) → names ≠ [] → a.readonly = false →
      ∀ b ∈ child.attrs, b.dir = false → b.readonly = false) :
    v.Safe ops Keeps SizeOk (v.unlink ops cwd path).1 := by
  unfold Volume.unlink
  cases hlook : v.lookup cwd path with
  | none => exact .refl h
  | some found =>
    obtain ⟨names, a, child⟩ := found
    dsimp only
    cases hparent : follow (v.root, v.tree) names.dropLast with
    | none => exact .refl h
    | some node =>
      obtain ⟨parent, children⟩ := node
      dsimp only
      by_cases hroot : names = []
      · rw [if_pos hroot]
        exact .refl h
      rw [if_neg hroot]
      by_cases hro : a.readonly = true
      · rw [if_pos hro]
        exact .refl h
      rw [if_neg hro]
      have hro' : a.readonly = false := by simpa using hro
      exact I.destroy_safe h (lookup_follow hlook).1 hroot hparent hro' (hspare names a child hlook hroot hro')

/-- The node that `vfs_write_file` and `vfs_append_file` go on with. -/
theorem Isolating.openNode_safe (h : v.Ok Keeps SizeOk) (now : Moment) (path : List UInt8) :
    v.Safe ops Keeps SizeOk (v.openNode ops now path).1 ∧ ∀ names a, (v.openNode ops now path).2 = some (names, a) →
      ∃ child, follow ((v.openNode ops now path).1.root, (v.openNode ops now path).1.tree) names = some (a, child) := by
  unfold Volume.openNode
  cases hlook : v.lookup none path with
  | some found =>
    refine ⟨.refl h, fun names a he => ?_⟩
    obtain ⟨rfl, rfl⟩ := Prod.mk.inj (Option.some.inj he)
    exact ⟨found.2.2, (lookup_follow hlook).1⟩
  | none =>
    refine ⟨I.create_safe h now none path false, fun names a he => ?_⟩
    obtain ⟨names', -, he⟩ := Option.bind_eq_some_iff.mp he
    obtain ⟨node, hf, he⟩ := Option.map_eq_some_iff.mp he
    obtain ⟨rfl, rfl⟩ := Prod.mk.inj he
    exact ⟨node.2, hf⟩

theorem Isolating.writeFile_safe (h : v.Ok Keeps SizeOk) (now : Moment) (path : List UInt8) {data : List UInt8}
    (hlen : data.length ≤ bufferMax) : v.Safe ops Keeps SizeOk (v.writeFile ops now path data).1 := by
  obtain ⟨hopen, hfound⟩ := I.openNode_safe h now path
  unfold Volume.writeFile
  dsimp only
  generalize v.openNode ops now path = o at hopen hfound ⊢
  cases ho : o.2 with
  | none => exact hopen
  | some found =>
    obtain ⟨names, a⟩ := found
    obtain ⟨child, hf⟩ := hfound names a ho
    obtain ⟨hsafe, hagain⟩ := I.truncate_safe hopen.ok now hf 0 (by decide)
    dsimp only
    by_cases ht : (o.1.truncate ops now names a 0).2 = false
    · rw [if_pos ht]
      exact hopen.trans hsafe
    · rw [if_neg ht]
      obtain ⟨size, child', hf'⟩ := hagain (by simpa using ht)
      exact (hopen.trans hsafe).trans (I.write_safe hsafe.ok now (a := { a with size := 0 }) hf' I.size_zero
        (I.fits I.size_zero hlen))

theorem Isolating.appendFile_safe (h : v.Ok Keeps SizeOk) (now : Moment) (path : List UInt8) {data : List UInt8}
    (hlen : data.length ≤ bufferMax) : v.Safe ops Keeps SizeOk (v.appendFile ops now path data).1 := by
  obtain ⟨hopen, hfound⟩ := I.openNode_safe h now path
  unfold Volume.appendFile
  dsimp only
  generalize v.openNode ops now path = o at hopen hfound ⊢
  cases ho : o.2 with
  | none => exact hopen
  | some found =>
    obtain ⟨names, a⟩ := found
    obtain ⟨child, hf⟩ := hfound names a ho
    have hsize := hopen.ok.sizes a (follow_mem_all hf)
    exact hopen.trans (I.write_safe hopen.ok now hf hsize (I.fits hsize hlen))

end volume

/-! ## Runs -/

inductive Driver
  | sifarFs
  | ramFs
  deriving DecidableEq, Repr

namespace Driver

def State : Driver → Type
  | .sifarFs => Fs
  | .ramFs => RamFs

def ops : (d : Driver) → FsOps d.State
  | .sifarFs => sfsOps
  | .ramFs => RamFs.ops

def Keeps : (d : Driver) → d.State → (ℕ → Prop) → Prop
  | .sifarFs => SfsKeeps
  | .ramFs => RamFs.Keeps

/-- A write to ramfs ends below `2 ^ 32`: `ramfs_write` adds the offset and the length in 32 bits, and
when that wraps it copies beyond the buffer. -/
def Fits : Driver → ℕ → ℕ → Prop
  | .sifarFs => fun _ _ => True
  | .ramFs => fun offset length => offset + length < 4294967296

def SizeOk : Driver → ℕ → Prop
  | .sifarFs => fun _ => True
  | .ramFs => fun size => size ≤ RamFs.maxBuffer

theorem isolating (d : Driver) : Isolating d.ops d.Keeps d.Fits d.SizeOk := by
  cases d with
  | sifarFs => exact sfs_isolating
  | ramFs => exact RamFs.isolating

/-- A tree as the driver's operations leave it. -/
def Ok (d : Driver) (v : Volume d.State) : Prop := v.Ok d.Keeps d.SizeOk

end Driver

/-- A mounted file system is such a tree. -/
theorem Mount.Ok.driver {m : Mount} (h : m.Ok) : Driver.sifarFs.Ok m := by
  refine ⟨h.nodup, ⟨h.sound.exclusive, fun n hn => ?_⟩, fun _ _ => trivial⟩
  obtain ⟨a, ha, rfl⟩ := List.mem_map.mp hn
  exact (h.nodes a ha).live

/-- `vfs_init`. -/
def ramInit : Volume RamFs :=
  ⟨⟨fun _ => none, 1, false⟩, { name := [], dir := true, readonly := false, size := 0, inode := 0 }, .nil⟩

theorem ramInit_ok : Driver.ramFs.Ok ramInit := by
  refine ⟨by decide, ⟨fun n hn => ?_, fun n bytes hn => (by cases hn), rfl⟩, fun a ha => ?_⟩
  · rw [List.mem_singleton.mp hn]
    exact Nat.one_pos
  · rw [List.mem_singleton.mp ha]
    exact Nat.zero_le _

/-- The calls that change files. `vfs_write` and `vfs_truncate` are made on the node at a path. -/
inductive FileCall
  | create (cwd : Option (List UInt8)) (path : List UInt8) (dir : Bool)
  | write (cwd : Option (List UInt8)) (path : List UInt8) (offset : ℕ) (data : List UInt8)
  | truncate (cwd : Option (List UInt8)) (path : List UInt8) (length : ℕ)
  | writeFile (path data : List UInt8)
  | appendFile (path data : List UInt8)
  | unlink (cwd : Option (List UInt8)) (path : List UInt8)
  deriving DecidableEq, Repr

/-- Offsets and lengths are of 32 bits, and buffers fit into the address space. -/
def FileCall.Valid : FileCall → Prop
  | .create _ _ _ => True
  | .write _ _ offset data => offset < 4294967296 ∧ data.length ≤ bufferMax
  | .truncate _ _ length => length < 4294967296
  | .writeFile _ data => data.length ≤ bufferMax
  | .appendFile _ data => data.length ≤ bufferMax
  | .unlink _ _ => True

/-- The volume after a call. -/
def FileCall.run {σ : Type} (ops : FsOps σ) (now : Moment) (c : FileCall) (v : Volume σ) : Volume σ :=
  let v := { v with fs := ops.setClock now.clock v.fs }
  match c with
  | .create cwd path dir => (v.create ops now cwd path dir).1
  | .write cwd path offset data =>
    match v.lookup cwd path with
    | none => v
    | some (names, a, _) => (v.write ops now names a offset data).1
  | .truncate cwd path length =>
    match v.lookup cwd path with
    | none => v
    | some (names, a, _) => (v.truncate ops now names a length).1
  | .writeFile path data => (v.writeFile ops now path data).1
  | .appendFile path data => (v.appendFile ops now path data).1
  | .unlink cwd path => (v.unlink ops cwd path).1

/-- A call of `vfs_unlink` does not destroy a directory that has a read-only file below it, and a call
of `vfs_write` does not leave the buffer of a ramfs file. -/
def FileCall.Spares (d : Driver) (v : Volume d.State) : FileCall → Prop
  | .write _ _ offset data => d.Fits offset data.length
  | .unlink cwd path => ∀ names a child, v.lookup cwd path = some (names, a, child) → names ≠ [] → a.readonly = false →
      ∀ b ∈ child.attrs, b.dir = false → b.readonly = false
  | _ => True

theorem FileCall.run_safe (d : Driver) {v : Volume d.State} (h : d.Ok v) (now : Moment) (c : FileCall) (hv : c.Valid)
    (hs : c.Spares d v) : v.Safe d.ops d.Keeps d.SizeOk (c.run d.ops now v) := by
  have hclock := d.isolating.setClock_safe h now.clock
  unfold FileCall.run
  dsimp only
  refine hclock.trans ?_
  have hok := hclock.ok
  cases c with
  | create cwd path dir => exact d.isolating.create_safe hok now cwd path dir
  | write cwd path offset data =>
    dsimp only
    cases hlook : Volume.lookup { v with fs := d.ops.setClock now.clock v.fs } cwd path with
    | none => exact .refl hok
    | some found =>
      obtain ⟨names, a, child⟩ := found
      have hf := (lookup_follow hlook).1
      exact d.isolating.write_safe hok now hf (hok.sizes a (follow_mem_all hf)) hs
  | truncate cwd path length =>
    dsimp only
    cases hlook : Volume.lookup { v with fs := d.ops.setClock now.clock v.fs } cwd path with
    | none => exact .refl hok
    | some found =>
      obtain ⟨names, a, child⟩ := found
      exact (d.isolating.truncate_safe hok now (lookup_follow hlook).1 _ hv).1
  | writeFile path data => exact d.isolating.writeFile_safe hok now path hv
  | appendFile path data => exact d.isolating.appendFile_safe hok now path hv
  | unlink cwd path => exact d.isolating.unlink_safe hok hs

/-- The calls one after the other. -/
def runCalls {σ : Type} (ops : FsOps σ) (v : Volume σ) : List (FileCall × Moment) → Volume σ
  | [] => v
  | (c, now) :: rest => runCalls ops (c.run ops now v) rest

/-- Every call of a run spares the read-only files of the state in which it is made. -/
def AllSpare (d : Driver) (v : Volume d.State) : List (FileCall × Moment) → Prop
  | [] => True
  | (c, now) :: rest => c.Spares d v ∧ AllSpare d (c.run d.ops now v) rest

theorem runCalls_safe (d : Driver) {v : Volume d.State} (h : d.Ok v) {calls : List (FileCall × Moment)}
    (hv : ∀ c ∈ calls, c.1.Valid) (hs : AllSpare d v calls) : v.Safe d.ops d.Keeps d.SizeOk (runCalls d.ops v calls) := by
  induction calls generalizing v with
  | nil => exact .refl h
  | cons c rest ih =>
    have hstep := c.1.run_safe d h c.2 (hv c List.mem_cons_self) hs.1
    exact hstep.trans (ih hstep.ok (fun e he => hv e (List.mem_cons_of_mem _ he)) hs.2)

/-- In a run that spares them, read-only files stay at their paths with their sizes and bytes. -/
theorem readonly_protected (d : Driver) {v : Volume d.State} (h : d.Ok v) {calls : List (FileCall × Moment)}
    (hv : ∀ c ∈ calls, c.1.Valid) (hs : AllSpare d v calls) {cwd : Option (List UInt8)} {path : List UInt8}
    {names : List Name} {a : Attrs} {child : Forest} (hl : v.lookup cwd path = some (names, a, child)) (hfile : a.dir = false)
    (hro : a.readonly = true) : (∃ child', (runCalls d.ops v calls).lookup cwd path = some (names, a, child')) ∧
      ∀ offset length, (runCalls d.ops v calls).read d.ops a offset length = v.read d.ops a offset length := by
  have hsafe := runCalls_safe d h hv hs
  unfold Volume.lookup at hl
  obtain ⟨absolute, habs, hl⟩ := Option.bind_eq_some_iff.mp hl
  obtain ⟨node, hf, hl⟩ := Option.map_eq_some_iff.mp hl
  obtain ⟨rfl, rfl⟩ := Prod.mk.inj hl
  have hlook : look (v.root, v.tree) (segments absolute) = some a := by
    unfold look
    rw [hf]
    rfl
  obtain ⟨hagain, hread⟩ := hsafe.protects _ a hlook hfile hro
  obtain ⟨child', hf'⟩ := look_follow hagain
  refine ⟨⟨child', ?_⟩, hread⟩
  unfold Volume.lookup
  rw [habs, Option.bind_some, hf']
  rfl

def motd : Attrs := { name := [109, 111, 116, 100], dir := false, readonly := true, size := 2, inode := 2 }

/-- The tree of `seed_filesystem` with one file: `/etc/motd`, which is read-only and says `hi`. -/
def seeded : Volume RamFs where
  fs := ⟨fun n => if n = 2 then some [104, 105] else none, 3, false⟩
  root := { name := [], dir := true, readonly := false, size := 0, inode := 0 }
  tree := .node { name := [101, 116, 99], dir := true, readonly := false, size := 0, inode := 1 } (.node motd .nil .nil) .nil

theorem seeded_ok : Driver.ramFs.Ok seeded := by
  refine ⟨by decide, ⟨fun n hn => ?_, fun n bytes hn => ?_, rfl⟩, fun a ha => ?_⟩
  · have : ∀ x ∈ seeded.all.inodes, x < 3 := by decide
    exact this n hn
  · have hn' : (if n = 2 then some [104, 105] else none) = some bytes := hn
    split at hn'
    · rw [← Option.some.inj hn']
      decide
    · cases hn'
  · have : ∀ b ∈ seeded.all.attrs, b.size ≤ RamFs.maxBuffer := by decide
    exact this a ha

def etc : List UInt8 := [47, 101, 116, 99]
def etcMotd : List UInt8 := [47, 101, 116, 99, 47, 109, 111, 116, 100]
def tmp : List UInt8 := [47, 116, 109, 112]

/-- A time at which the heap has room. -/
def roomy : Moment := ⟨0, true, true, true⟩

/-- Another directory comes and goes, and writes to the file are refused. -/
def seededCalls : List (FileCall × Moment) :=
  [(.create none tmp true, roomy), (.writeFile etcMotd [120], roomy), (.unlink none etcMotd, roomy), (.unlink none tmp, roomy)]

theorem readonly_protected_seeded :
    seeded.lookup none etcMotd = some ([[101, 116, 99], [109, 111, 116, 100]], motd, .nil) ∧
    ∃ child, (runCalls Driver.ramFs.ops seeded seededCalls).lookup none etcMotd =
      some ([[101, 116, 99], [109, 111, 116, 100]], motd, child) := by
  have hl : seeded.lookup none etcMotd = some ([[101, 116, 99], [109, 111, 116, 100]], motd, .nil) := by decide
  have hv : ∀ c ∈ seededCalls, c.1.Valid := by
    intro c hc
    simp only [seededCalls, List.mem_cons, List.not_mem_nil, or_false] at hc
    rcases hc with rfl | rfl | rfl | rfl
    · trivial
    · exact (by decide : 1 ≤ bufferMax)
    · trivial
    · trivial
  have hs : AllSpare Driver.ramFs seeded seededCalls := by
    refine ⟨trivial, trivial, ?_, ?_, trivial⟩
    · -- the file itself is refused
      intro names a child hlook _ hro
      have hfound := hlook.symm.trans (show _ = some ([[101, 116, 99], [109, 111, 116, 100]], motd, .nil) from by decide)
      obtain ⟨-, h⟩ := Prod.mk.inj (Option.some.inj hfound)
      obtain ⟨rfl, -⟩ := Prod.mk.inj h
      cases hro
    · -- there is nothing below the directory
      intro names a child hlook _ _ b hb
      have hfound := hlook.symm.trans (show _ = some ([[116, 109, 112]],
        { name := [116, 109, 112], dir := true, readonly := false, size := 0, inode := 3 }, Forest.nil) from by decide)
      obtain ⟨-, h⟩ := Prod.mk.inj (Option.some.inj hfound)
      obtain ⟨-, rfl⟩ := Prod.mk.inj h
      cases hb
  exact ⟨hl, (readonly_protected .ramFs seeded_ok hv hs hl rfl rfl).1⟩

/-- Removing `/etc` removes `/etc/motd`. -/
theorem readonly_destroyed : Driver.ramFs.Ok seeded ∧
    seeded.lookup none etcMotd = some ([[101, 116, 99], [109, 111, 116, 100]], motd, .nil) ∧
    motd.dir = false ∧ motd.readonly = true ∧ (seeded.unlink RamFs.ops none etc).2 = 0 ∧
    (runCalls Driver.ramFs.ops seeded [(.unlink none etc, roomy)]).lookup none etcMotd = none :=
  ⟨seeded_ok, by decide, rfl, rfl, by decide, by decide⟩

end SifarOS.Vfs
