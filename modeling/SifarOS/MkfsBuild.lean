import SifarOS.MkfsLayout
import SifarOS.SifarFsDirs

/-! # Building an image call by call

The calls of `mkfs.py` with the list of what was given to `write_data`. As long as no entry leads to
an inode that is free, the blocks of an image are laid out as `Layout` says and every inode has the
bytes that were given for it last. -/
namespace SifarOS.Mkfs
open ByteMemory SifarFs

namespace Filesystem

variable {fs fs' g : Filesystem} {n m b dir : ℕ} {payload name : List UInt8} {L : ℕ → List ℕ} {high : ℕ} {i : Inode}

/-! ## Reading -/

theorem Holds.getD_ne_zero {l : List ℕ} (h : Holds fs n l) {k : ℕ} (hk : k < needed (fs.inodes n).size) :
    l.getD (place k) 0 ≠ 0 := by
  have hle := h.needed_le
  have hlt : place k < l.length := by
    rw [h.length]
    exact (place_lt_taken (by omega)).mpr hk
  rw [List.getD_eq_getElem _ _ hlt]
  exact h.pos _ (List.getElem_mem _)

/-- `read_data` returns the bytes of the file. -/
theorem readData_eq {l : List ℕ} (h : Holds fs n l) {data : List UInt8} (hr : fs.readData n = some data) :
    data = fs.fileBytes n := by
  unfold readData at hr
  dsimp only at hr
  split at hr
  · cases hr
  rw [← Option.some.inj hr]
  have hle := h.needed_le
  refine List.map_congr_left (fun pos hpos => ?_)
  have hlt : pos / 4096 < needed (fs.inodes n).size := by
    have := List.mem_range.mp hpos
    unfold needed
    omega
  have hne := h.getD_ne_zero hlt
  have hslot := h.laid (pos / 4096) (by omega)
  have hblock : fs.blockOf (fs.inodes n) (pos / 4096) = (fs.inodes n).slot fs.blocks (pos / 4096) := by
    unfold blockOf
    by_cases h12 : pos / 4096 < 12
    · rw [if_pos h12, Inode.slot_direct h12]
    · rw [if_neg h12]
      by_cases hi : (fs.inodes n).indirect = 0
      · rw [Inode.slot_no_table (by omega) (by omega) hi] at hslot
        exact absurd hslot.symm hne
      · exact (Inode.slot_table (by omega) (by omega) hi).symm
  unfold Inode.byte
  rw [hblock, if_neg (by rwa [hslot])]

theorem length_fileBytes (fs : Filesystem) (n : ℕ) : (fs.fileBytes n).length = (fs.inodes n).size := by
  unfold fileBytes
  rw [List.length_map, List.length_range]

/-! ## Changes to an inode that leave its blocks alone -/

/-- The pointers and the size are the same. -/
structure SameData (i i' : Inode) : Prop where
  direct : i'.direct = i.direct
  indirect : i'.indirect = i.indirect
  size : i'.size = i.size

theorem SameData.slot {i i' : Inode} (h : SameData i i') (d : Memory) (k : ℕ) : i'.slot d k = i.slot d k :=
  Inode.slot_congr (fun _ => by rw [h.direct]) h.indirect (fun _ => SameOn.refl _ _ _)

theorem SameData.byte {i i' : Inode} (h : SameData i i') (d : Memory) (pos : ℕ) : i'.byte d pos = i.byte d pos :=
  Inode.byte_congr (h.slot d _) (fun _ => SameOn.refl _ _ _)

theorem inodes_setInode_cases (fs : Filesystem) (n : ℕ) (i : Inode) (m : ℕ) :
    (m = n ∧ (fs.setInode n i).inodes m = i) ∨ (m ≠ n ∧ (fs.setInode n i).inodes m = fs.inodes m) := by
  by_cases hm : m = n
  · exact Or.inl ⟨hm, by rw [hm, inodes_setInode]⟩
  · exact Or.inr ⟨hm, inodes_setInode_ne fs hm i⟩

theorem sameData_setInode (h : SameData (fs.inodes n) i) (m : ℕ) : SameData (fs.inodes m) ((fs.setInode n i).inodes m) := by
  rcases inodes_setInode_cases fs n i m with ⟨rfl, he⟩ | ⟨-, he⟩
  · rwa [he]
  · rw [he]
    exact ⟨rfl, rfl, rfl⟩

theorem Layout.setInode (h : Layout fs L high) (hi : SameData (fs.inodes n) i) : Layout (fs.setInode n i) L high where
  start_le := h.start_le
  le := h.le
  holds := by
    intro m
    have hs := sameData_setInode hi m
    have hold := h.holds m
    exact ⟨fun k hk => (hs.slot _ k).trans (hold.laid k hk), by rw [hs.size]; exact hold.length, by rw [hs.size]; exact hold.size_le,
      hold.increasing, hold.pos, fun k hk => by rw [hs.direct]; exact hold.direct k hk⟩
  range := h.range
  disjoint := h.disjoint
  cover := h.cover
  used := h.used
  zero := h.zero

theorem fileBytes_setInode (hi : SameData (fs.inodes n) i) (m : ℕ) : (fs.setInode n i).fileBytes m = fs.fileBytes m := by
  have hs := sameData_setInode hi m
  unfold fileBytes
  rw [hs.size]
  exact List.map_congr_left (fun pos _ => hs.byte _ pos)

/-! ## The invariant -/

/-- The words of an inode besides its pointers and its size fit their 32 bits. -/
structure Header (i : Inode) : Prop where
  type_lt : i.type < 4294967296
  links_lt : i.links < 4294967296
  created_lt : i.created < 4294967296
  modified_lt : i.modified < 4294967296
  flags_lt : i.flags < 4294967296
  reserved : ∀ k, i.reserved k = 0

theorem header_empty : Header {} := ⟨by decide, by decide, by decide, by decide, by decide, fun _ => rfl⟩

/-- The state of a build, and the bytes that every inode has. -/
structure Built (fs : Filesystem) (data : ℕ → List UInt8) : Prop where
  layout : ∃ L high, Layout fs L high
  total_lt : fs.totalBlocks < 4294967296
  count_lt : fs.inodeCount < 4294967296
  free : ∀ n, (fs.inodes n).type = typeFree → fs.inodes n = {}
  header : ∀ n, Header (fs.inodes n)
  bytes : ∀ n, fs.fileBytes n = data n
  outside : ∀ n, n = 0 ∨ fs.inodeCount < n → fs.inodes n = {}

variable {data data' : ℕ → List UInt8}

theorem Built.readData (h : Built fs data) {bytes : List UInt8} (hr : fs.readData n = some bytes) : bytes = data n := by
  obtain ⟨L, high, hL⟩ := h.layout
  rw [readData_eq (hL.holds n) hr, h.bytes n]

theorem Built.size_eq (h : Built fs data) (n : ℕ) : (fs.inodes n).size = (data n).length := by
  rw [← h.bytes n, length_fileBytes]

/-- A free inode gets a type. -/
theorem Built.allocate (h : Built fs data) (hfree : (fs.inodes n).type = typeFree) (hn : 1 ≤ n ∧ n ≤ fs.inodeCount) (hi : SameData {} i) (hh : Header i)
    (ht : i.type ≠ typeFree) : Built (fs.setInode n i) data := by
  obtain ⟨L, high, hL⟩ := h.layout
  have hs : SameData (fs.inodes n) i := by
    rw [h.free n hfree]
    exact hi
  refine ⟨⟨L, high, hL.setInode hs⟩, h.total_lt, h.count_lt, fun m hm => ?_, fun m => ?_, fun m => ?_, fun m hm => ?_⟩
  · rcases inodes_setInode_cases fs n i m with ⟨-, he⟩ | ⟨-, he⟩
    · rw [he] at hm
      exact absurd hm ht
    · rw [he] at hm ⊢
      exact h.free m hm
  · rcases inodes_setInode_cases fs n i m with ⟨-, he⟩ | ⟨-, he⟩
    · rw [he]
      exact hh
    · rw [he]
      exact h.header m
  · rw [fileBytes_setInode hs]
    exact h.bytes m
  · have hm' : m = 0 ∨ fs.inodeCount < m := hm
    rw [inodes_setInode_ne _ (by omega)]
    exact h.outside m hm

/-- New data that is no shorter is written over the data of an inode. -/
theorem Built.rewrite (h : Built fs data) (ht : (fs.inodes n).type ≠ typeFree) (hc : ∀ l, Holds fs n l → Cleared l n fs g)
    (hgrow : (data n).length ≤ payload.length) (hw : g.writeData n payload = some fs') :
    Built fs' (Function.update data n payload) ∧ Rewritten n payload fs fs' := by
  obtain ⟨L, high, hL⟩ := h.layout
  have hneed : needed (fs.inodes n).size ≤ needed payload.length := by
    rw [h.size_eq]
    unfold needed
    omega
  obtain ⟨⟨l, high', hL'⟩, hr⟩ := hL.rewrite (hc _ (hL.holds n)) h.total_lt hneed hw
  obtain ⟨-, htotal, hcount⟩ := shape_dataStart hr.shape
  refine ⟨⟨⟨_, _, hL'⟩, by rw [htotal]; exact h.total_lt, by rw [hcount]; exact h.count_lt, fun m hm => ?_, fun m => ?_,
    fun m => ?_, fun m hm => ?_⟩, hr⟩
  · by_cases he : m = n
    · subst he
      rw [hr.inode] at hm
      exact absurd hm ht
    · rw [hr.inodes m he] at hm ⊢
      exact h.free m hm
  · by_cases he : m = n
    · subst he
      have hh := h.header m
      rw [hr.inode]
      exact ⟨hh.type_lt, hh.links_lt, hh.created_lt, hh.modified_lt, hh.flags_lt, hh.reserved⟩
    · rw [hr.inodes m he]
      exact h.header m
  · by_cases he : m = n
    · subst he
      rw [hr.bytes, Function.update_self]
    · rw [hr.other_bytes m he, Function.update_of_ne he]
      exact h.bytes m
  · rw [hcount] at hm
    have hempty := h.outside m hm
    have hmn : m ≠ n := by
      rintro rfl
      exact ht (by rw [hempty]; rfl)
    rw [hr.inodes m hmn]
    exact hempty

/-- An inode that has no data. -/
theorem cleared_of_empty (hs : SameData {} (fs.inodes n)) {l : List ℕ} (hl : Holds fs n l) : Cleared l n fs fs := by
  have hnil : l = [] := by
    refine List.length_eq_zero_iff.mp ?_
    rw [hl.length, hs.size]
    rfl
  subst hnil
  refine ⟨rfl, fun _ _ => rfl, ?_, fun b => by simp, fun _ _ => rfl, fun h => absurd h (by decide)⟩
  have hd := hs.direct
  have hi := hs.indirect
  have hz := hs.size
  generalize fs.inodes n = j at hd hi hz ⊢
  cases j
  dsimp only at hd hi hz
  subst hd hi hz
  rfl

/-! ## The calls of `write_data` -/

/-- What was given to `write_data`, in order. -/
abbrev Log := List (ℕ × List UInt8)

/-- The bytes that were given last for an inode; none were given for one that is not in the list. -/
def given (log : Log) : ℕ → List UInt8 := log.foldl (fun data call => Function.update data call.1 call.2) (fun _ => [])

theorem given_append (log : Log) (n : ℕ) (payload : List UInt8) :
    given (log ++ [(n, payload)]) = Function.update (given log) n payload := by
  unfold given
  rw [List.foldl_append]
  rfl

/-- The data that `dir_add` gives to `write_data`. -/
def dirPayload (fs : Filesystem) (dir : ℕ) (name : List UInt8) (child : ℕ) : Option (List UInt8) :=
  if 56 ≤ name.length then none
  else (fs.readData dir).bind (fun data =>
    (scan 4 (fun e => e.inode == 0) data).map (fun hole =>
      match hole with
      | some i => data.take (64 * i) ++ Fs.encodeDirent child name ++ data.drop (64 * i + 64)
      | none => data ++ Fs.encodeDirent child name))

theorem dirAdd_eq (fs : Filesystem) (dir : ℕ) (name : List UInt8) (child : ℕ) :
    fs.dirAdd dir name child = (fs.dirPayload dir name child).bind ((fs.freeData dir).writeData dir) := by
  unfold dirAdd dirPayload
  split
  · rfl
  · cases fs.readData dir with
    | none => rfl
    | some data =>
      dsimp only [Option.bind_some]
      cases scan 4 (fun e => e.inode == 0) data with
      | none => rfl
      | some hole => cases hole <;> rfl

/-- `dir_add` with its call of `write_data`. -/
def dirAddLog (s : Filesystem × Log) (dir : ℕ) (name : List UInt8) (child : ℕ) : Option (Filesystem × Log) :=
  (s.1.dirPayload dir name child).bind (fun data =>
    ((s.1.freeData dir).writeData dir data).map (fun fs => (fs, s.2 ++ [(dir, data)])))

/-- One part of a path in `resolve_directory`. -/
def resolvePartLog (place : (Filesystem × Log) × ℕ) (part : List UInt8) : Option ((Filesystem × Log) × ℕ) :=
  (place.1.1.readData place.2).bind (fun data =>
    (scan 8 (fun e => e.inode != 0 && e.name == part) data).bind (fun found =>
      match found with
      | some i => some (place.1, (entryOf data i).inode)
      | none => place.1.1.makeDirectory.bind (fun (fs, number) =>
          (dirAddLog (fs, place.1.2) place.2 part number).map (fun s => (s, number)))))

def resolveDirectoryLog (s : Filesystem × Log) (parts : List (List UInt8)) : Option ((Filesystem × Log) × ℕ) :=
  parts.foldlM resolvePartLog (s, 1)

def addFileLog (s : Filesystem × Log) (parts : List (List UInt8)) (name payload : List UInt8) (flags : ℕ) :
    Option (Filesystem × Log) :=
  (resolveDirectoryLog s parts).bind (fun (s, parent) =>
    s.1.allocInode.bind (fun number =>
      ((s.1.setInode number { s.1.inodes number with type := typeFile, links := 1, flags := flags }).writeData
        number payload).bind (fun fs => dirAddLog (fs, s.2 ++ [(number, payload)]) parent name number)))

theorem dirAddLog_fst (s : Filesystem × Log) (dir : ℕ) (name : List UInt8) (child : ℕ) :
    (dirAddLog s dir name child).map Prod.fst = s.1.dirAdd dir name child := by
  unfold dirAddLog
  rw [dirAdd_eq]
  cases s.1.dirPayload dir name child with
  | none => rfl
  | some data =>
    dsimp only [Option.bind_some]
    rw [Option.map_map]
    exact Option.map_id'

theorem resolvePartLog_fst (place : (Filesystem × Log) × ℕ) (part : List UInt8) :
    (resolvePartLog place part).map (fun p => (p.1.1, p.2)) = resolvePart false (place.1.1, place.2) part := by
  unfold resolvePartLog resolvePart
  dsimp only
  cases place.1.1.readData place.2 with
  | none => rfl
  | some data =>
    dsimp only [Option.bind_some]
    cases scan 8 (fun e => e.inode != 0 && e.name == part) data with
    | none => rfl
    | some found =>
      cases found with
      | some i => rfl
      | none =>
        dsimp only [Option.bind_some]
        cases place.1.1.makeDirectory with
        | none => rfl
        | some made =>
          dsimp only [Option.bind_some]
          rw [← dirAddLog_fst (made.1, place.1.2), Option.map_map, Option.map_map]
          rfl

theorem foldlM_resolvePartLog_fst (place : (Filesystem × Log) × ℕ) (parts : List (List UInt8)) :
    (parts.foldlM resolvePartLog place).map (fun p => (p.1.1, p.2)) =
      parts.foldlM (resolvePart false) (place.1.1, place.2) := by
  induction parts generalizing place with
  | nil => rfl
  | cons part rest ih =>
    rw [List.foldlM_cons, List.foldlM_cons, ← resolvePartLog_fst]
    cases resolvePartLog place part with
    | none => rfl
    | some next => exact ih next

theorem addFileLog_fst (s : Filesystem × Log) (parts : List (List UInt8)) (name payload : List UInt8) (flags : ℕ) :
    (addFileLog s parts name payload flags).map Prod.fst = s.1.addFile false parts name payload flags := by
  unfold addFileLog addFile resolveDirectoryLog resolveDirectory
  rw [← foldlM_resolvePartLog_fst (s, 1)]
  cases parts.foldlM resolvePartLog (s, 1) with
  | none => rfl
  | some found =>
    dsimp only [Option.map_some, Option.bind_some]
    cases found.1.1.allocInode with
    | none => rfl
    | some number =>
      dsimp only [Option.bind_some]
      cases writeData (found.1.1.setInode number { found.1.1.inodes number with type := typeFile, links := 1, flags := flags })
          number payload with
      | none => rfl
      | some fs => exact dirAddLog_fst (fs, found.1.2 ++ [(number, payload)]) found.2 name number

end Filesystem

open Filesystem

def Argument.applyLog (s : Filesystem × Log) : Argument → Option (Filesystem × Log)
  | .dir parts => (resolveDirectoryLog s parts).map Prod.fst
  | .file parts name payload flags => addFileLog s parts name payload flags

/-- `main` up to the call of `serialise`, with the calls of `write_data`. -/
def buildLog (totalBlocks inodeCount : ℕ) (label : ℕ → ℕ) (arguments : List Argument) : Option (Filesystem × Log) :=
  (Filesystem.new totalBlocks inodeCount label).bind (fun fs =>
    fs.allocInode.bind (fun root =>
      if root ≠ 1 then none
      else arguments.foldlM Argument.applyLog (fs.setInode root { fs.inodes root with type := typeDir, links := 1 }, [])))

theorem Argument.applyLog_fst (s : Filesystem × Log) (a : Argument) : (a.applyLog s).map Prod.fst = a.apply false s.1 := by
  cases a with
  | dir parts =>
    unfold applyLog apply resolveDirectoryLog resolveDirectory
    dsimp only
    rw [← foldlM_resolvePartLog_fst (s, 1), Option.map_map, Option.map_map]
    rfl
  | file parts name payload flags => exact addFileLog_fst s parts name payload flags

theorem foldlM_applyLog_fst (s : Filesystem × Log) (arguments : List Argument) :
    (arguments.foldlM Argument.applyLog s).map Prod.fst = arguments.foldlM (Argument.apply false) s.1 := by
  induction arguments generalizing s with
  | nil => rfl
  | cons a rest ih =>
    rw [List.foldlM_cons, List.foldlM_cons, ← Argument.applyLog_fst]
    cases a.applyLog s with
    | none => rfl
    | some next => exact ih next

/-- The list of calls is all that is added to `build`. -/
theorem buildLog_fst (totalBlocks inodeCount : ℕ) (label : ℕ → ℕ) (arguments : List Argument) :
    (buildLog totalBlocks inodeCount label arguments).map Prod.fst = build false totalBlocks inodeCount label arguments := by
  unfold buildLog build
  cases Filesystem.new totalBlocks inodeCount label with
  | none => rfl
  | some fs =>
    dsimp only [Option.bind_some]
    cases fs.allocInode with
    | none => rfl
    | some root =>
      dsimp only [Option.bind_some]
      split
      · rfl
      · exact foldlM_applyLog_fst _ arguments

/-! ## Calls that stay on allocated inodes -/

namespace Filesystem

/-- Following the parts of a path from `dir`, every inode whose data is read as a directory's is
allocated. -/
def GroundedParts (fs : Filesystem) (dir : ℕ) : List (List UInt8) → Prop
  | [] => True
  | part :: rest => (fs.inodes dir).type ≠ typeFree ∧
      ∀ next, resolvePart false (fs, dir) part = some next → GroundedParts next.1 next.2 rest

instance GroundedParts.decidable : ∀ (parts : List (List UInt8)) (fs : Filesystem) (dir : ℕ),
    Decidable (fs.GroundedParts dir parts)
  | [], _, _ => inferInstanceAs (Decidable True)
  | part :: rest, fs, dir =>
    have : ∀ next : Filesystem × ℕ, Decidable (next.1.GroundedParts next.2 rest) :=
      fun next => GroundedParts.decidable rest next.1 next.2
    inferInstanceAs (Decidable ((fs.inodes dir).type ≠ typeFree ∧
      ∀ next ∈ resolvePart false (fs, dir) part, GroundedParts next.1 next.2 rest))

end Filesystem

/-- No entry that the call follows names a free inode. A file's bytes can hold such an entry, since
`resolve_directory` does not ask whether an inode is a directory's. -/
def Argument.Grounded (fs : Filesystem) : Argument → Prop
  | .dir parts => fs.GroundedParts 1 parts
  | .file parts _ _ _ => fs.GroundedParts 1 parts ∧
      ∀ next, fs.resolveDirectory false parts = some next → (next.1.inodes next.2).type ≠ typeFree

instance (fs : Filesystem) : ∀ a : Argument, Decidable (a.Grounded fs)
  | .dir parts => inferInstanceAs (Decidable (fs.GroundedParts 1 parts))
  | .file parts _ _ _ => inferInstanceAs (Decidable (fs.GroundedParts 1 parts ∧
      ∀ next ∈ fs.resolveDirectory false parts, (next.1.inodes next.2).type ≠ typeFree))

/-- All calls of a build, each in the state that the calls before it have left. -/
def GroundedAll (fs : Filesystem) : List Argument → Prop
  | [] => True
  | a :: rest => a.Grounded fs ∧ ∀ next, a.apply false fs = some next → GroundedAll next rest

instance GroundedAll.decidable : ∀ (arguments : List Argument) (fs : Filesystem), Decidable (GroundedAll fs arguments)
  | [], _ => inferInstanceAs (Decidable True)
  | a :: rest, fs =>
    have : ∀ next, Decidable (GroundedAll next rest) := GroundedAll.decidable rest
    inferInstanceAs (Decidable (a.Grounded fs ∧ ∀ next ∈ a.apply false fs, GroundedAll next rest))

/-- `serialise` packs the flags into 32 bits. -/
def Argument.Packable : Argument → Prop
  | .dir _ => True
  | .file _ _ _ flags => flags < 4294967296

instance : ∀ a : Argument, Decidable a.Packable
  | .dir _ => inferInstanceAs (Decidable True)
  | .file _ _ _ flags => inferInstanceAs (Decidable (flags < 4294967296))

namespace Filesystem

/-- A state of `buildLog`. -/
def Logged (s : Filesystem × Log) : Prop := Built s.1 (given s.2)

variable {fs : Filesystem} {s s' : Filesystem × Log} {dir child number : ℕ} {name part payload : List UInt8} {i : Inode}
  {data : ℕ → List UInt8}

theorem allocInode_free (h : fs.allocInode = some number) :
    (fs.inodes number).type = typeFree ∧ 1 ≤ number ∧ number ≤ fs.inodeCount := by
  unfold allocInode at h
  obtain ⟨i, hi, rfl⟩ := Option.map_eq_some_iff.mp h
  have hlt := List.mem_range.mp (List.mem_of_find?_eq_some hi)
  exact ⟨by simpa using List.find?_some hi, by omega, by omega⟩

/-- The data of a directory only grows. -/
theorem length_dirPayload (h : Built fs data) {bytes : List UInt8} (hp : fs.dirPayload dir name child = some bytes) :
    (data dir).length ≤ bytes.length := by
  unfold dirPayload at hp
  split at hp
  · cases hp
  rename_i hname
  obtain ⟨old, hread, hp⟩ := Option.bind_eq_some_iff.mp hp
  obtain ⟨hole, hscan, rfl⟩ := Option.map_eq_some_iff.mp hp
  have hentry := length_encodeDirent child (show name.length ≤ 56 by omega)
  rw [← h.readData hread]
  cases hole with
  | none =>
    dsimp only
    rw [List.length_append]
    omega
  | some i =>
    dsimp only
    have hi : 64 * i ≤ old.length := by
      unfold scan at hscan
      dsimp only at hscan
      split at hscan
      · cases hscan
      · rename_i j hj
        split at hscan
        · cases hscan
        · rename_i hshort
          obtain rfl := Option.some.inj (Option.some.inj hscan)
          simp only [decide_eq_true_eq, Nat.not_lt] at hshort
          omega
    rw [List.length_append, List.length_append, List.length_take, List.length_drop, hentry]
    omega

theorem Logged.dirAdd (h : Logged s) (ht : (s.1.inodes dir).type ≠ typeFree) (hd : dirAddLog s dir name child = some s') :
    Logged s' ∧ (∀ m, (s'.1.inodes m).type = (s.1.inodes m).type) ∧ s'.1.inodeCount = s.1.inodeCount := by
  obtain ⟨bytes, hp, hd⟩ := Option.bind_eq_some_iff.mp hd
  obtain ⟨fs, hw, rfl⟩ := Option.map_eq_some_iff.mp hd
  obtain ⟨hb, hr⟩ := Built.rewrite h ht (fun l hl => freeData_cleared hl) (length_dirPayload h hp) hw
  refine ⟨?_, fun m => ?_, (shape_dataStart hr.shape).2.2⟩
  · unfold Logged
    rw [given_append]
    exact hb
  · by_cases hm : m = dir
    · subst hm
      dsimp only
      rw [hr.inode]
    · dsimp only
      rw [hr.inodes m hm]

/-- An inode is taken for a directory or a file without data. -/
theorem Logged.allocate (h : Logged s) (ha : s.1.allocInode = some number) (hi : SameData {} i) (hh : Header i)
    (ht : i.type ≠ typeFree) : Logged (s.1.setInode number i, s.2) := Built.allocate h (allocInode_free ha).1 (allocInode_free ha).2 hi hh ht

theorem Logged.resolvePart (h : Logged s) (ht : (s.1.inodes dir).type ≠ typeFree) {next : (Filesystem × Log) × ℕ}
    (hp : resolvePartLog (s, dir) part = some next) : Logged next.1 := by
  unfold resolvePartLog at hp
  obtain ⟨data, -, hp⟩ := Option.bind_eq_some_iff.mp hp
  obtain ⟨found, -, hp⟩ := Option.bind_eq_some_iff.mp hp
  cases found with
  | some i =>
    obtain rfl := Option.some.inj hp
    exact h
  | none =>
    obtain ⟨⟨fs, number⟩, hmake, hp⟩ := Option.bind_eq_some_iff.mp hp
    obtain ⟨s', hadd, rfl⟩ := Option.map_eq_some_iff.mp hp
    obtain ⟨number', halloc, he⟩ := Option.map_eq_some_iff.mp hmake
    obtain ⟨rfl, rfl⟩ := Prod.mk.inj he
    have hfree := (allocInode_free halloc).1
    have hempty := Built.free h number' hfree
    have hnew := h.allocate halloc (i := { s.1.inodes number' with type := typeDir, links := 1, size := 0 })
      (by rw [hempty]; exact ⟨rfl, rfl, rfl⟩)
      (by rw [hempty]; exact { header_empty with type_lt := by decide, links_lt := by decide })
      (show typeDir ≠ typeFree by decide)
    have hne : dir ≠ number' := fun he => ht (he ▸ hfree)
    exact (hnew.dirAdd (by dsimp only; rwa [inodes_setInode_ne _ hne]) hadd).1

theorem Logged.resolveParts (h : Logged s) {parts : List (List UInt8)} (hg : s.1.GroundedParts dir parts)
    {next : (Filesystem × Log) × ℕ} (hp : parts.foldlM resolvePartLog (s, dir) = some next) : Logged next.1 := by
  induction parts generalizing s dir with
  | nil =>
    obtain rfl := Option.some.inj hp
    exact h
  | cons part rest ih =>
    rw [List.foldlM_cons] at hp
    obtain ⟨mid, hmid, hrest⟩ := Option.bind_eq_some_iff.mp hp
    have hfst := resolvePartLog_fst (s, dir) part
    rw [hmid] at hfst
    exact ih (h.resolvePart hg.1 hmid) (hg.2 _ hfst.symm) hrest

theorem Logged.addFile (h : Logged s) {parts : List (List UInt8)} {flags : ℕ} (hflags : flags < 4294967296)
    (hg : (Argument.file parts name payload flags).Grounded s.1) (ha : addFileLog s parts name payload flags = some s') :
    Logged s' := by
  unfold addFileLog resolveDirectoryLog at ha
  obtain ⟨⟨r, parent⟩, hres, ha⟩ := Option.bind_eq_some_iff.mp ha
  obtain ⟨number, halloc, ha⟩ := Option.bind_eq_some_iff.mp ha
  obtain ⟨fs, hw, ha⟩ := Option.bind_eq_some_iff.mp ha
  have hr := h.resolveParts hg.1 hres
  have hfst := foldlM_resolvePartLog_fst (s, 1) parts
  rw [hres] at hfst
  have hparent : (r.1.inodes parent).type ≠ typeFree := hg.2 (r.1, parent) hfst.symm
  have hfree := (allocInode_free halloc).1
  have hempty := Built.free hr number hfree
  have hsame : SameData {} { r.1.inodes number with type := typeFile, links := 1, flags := flags } := by
    rw [hempty]
    exact ⟨rfl, rfl, rfl⟩
  have hnew := hr.allocate halloc hsame
    (by
      rw [hempty]
      exact { header_empty with
        type_lt := show typeFile < 4294967296 by decide
        links_lt := show 1 < 4294967296 by decide
        flags_lt := hflags })
    (show typeFile ≠ typeFree by decide)
  have hsame' : SameData {} ((r.1.setInode number { r.1.inodes number with type := typeFile, links := 1, flags := flags }).inodes number) := by
    rw [inodes_setInode]
    exact hsame
  obtain ⟨hb, hrew⟩ := Built.rewrite hnew (n := number) (by
      dsimp only
      rw [inodes_setInode]
      exact show typeFile ≠ typeFree by decide)
    (fun l hl => cleared_of_empty hsame' hl) (by rw [← Built.size_eq hnew, hsame'.size]; exact Nat.zero_le _) hw
  have hlog : Logged (fs, r.2 ++ [(number, payload)]) := by
    unfold Logged
    rw [given_append]
    exact hb
  have hne : parent ≠ number := fun he => hparent (he ▸ hfree)
  refine (hlog.dirAdd ?_ ha).1
  dsimp only
  rwa [hrew.inodes parent hne, inodes_setInode_ne _ hne]

end Filesystem

theorem Logged.apply {s s' : Filesystem × Log} (h : Logged s) {a : Argument} (hp : a.Packable) (hg : a.Grounded s.1)
    (ha : a.applyLog s = some s') : Logged s' := by
  cases a with
  | dir parts =>
    obtain ⟨next, hres, rfl⟩ := Option.map_eq_some_iff.mp ha
    exact h.resolveParts hg hres
  | file parts name payload flags => exact h.addFile hp hg ha

theorem Logged.applyAll {s s' : Filesystem × Log} (h : Logged s) {arguments : List Argument} (hp : ∀ a ∈ arguments, a.Packable)
    (hg : GroundedAll s.1 arguments) (ha : arguments.foldlM Argument.applyLog s = some s') : Logged s' := by
  induction arguments generalizing s with
  | nil =>
    obtain rfl := Option.some.inj ha
    exact h
  | cons a rest ih =>
    rw [List.foldlM_cons] at ha
    obtain ⟨mid, hmid, hrest⟩ := Option.bind_eq_some_iff.mp ha
    have hfst := Argument.applyLog_fst s a
    rw [hmid] at hfst
    exact ih (Logged.apply h (hp a List.mem_cons_self) hg.1 hmid) (fun e he => hp e (List.mem_cons_of_mem _ he))
      (hg.2 _ hfst.symm) hrest

namespace Filesystem

theorem holds_empty {fs : Filesystem} {n : ℕ} (h : fs.inodes n = {}) : Holds fs n [] := by
  refine ⟨fun k _ => ?_, ?_, ?_, List.Pairwise.nil, fun b hb => (by cases hb), fun k _ => by rw [h]⟩
  · rw [h, Inode.slot_empty]
    rfl
  · rw [h]
    rfl
  · rw [h]
    exact Nat.zero_le _

/-- `__init__` lays out no blocks. -/
theorem built_new {totalBlocks inodeCount : ℕ} {label : ℕ → ℕ} (ht : totalBlocks < 4294967296)
    (hc : inodeCount < 4294967296) {fs : Filesystem} (h : Filesystem.new totalBlocks inodeCount label = some fs) :
    Built fs (fun _ => []) := by
  unfold Filesystem.new at h
  extract_lets fs₀ at h
  have htotal : fs₀.totalBlocks = totalBlocks := rfl
  have hcount : fs₀.inodeCount = inodeCount := rfl
  have hinodes : ∀ n, fs₀.inodes n = {} := fun _ => rfl
  have hblocks : ∀ x, fs₀.blocks x = 0 := fun _ => rfl
  clear_value fs₀
  split at h
  · cases h
  rename_i hle
  obtain rfl := Option.some.inj h
  have hstart : ({ fs₀ with used := fun b => decide (b < fs₀.dataStart) } : Filesystem).dataStart = fs₀.dataStart :=
    (shape_dataStart rfl).1
  refine ⟨⟨fun _ => [], fs₀.dataStart, hstart.le, htotal ▸ Nat.le_of_not_lt hle, fun n => holds_empty (hinodes n),
    fun n b hb => (by cases hb), fun n m b hb => (by cases hb), fun b h₁ h₂ => absurd h₂ (Nat.not_lt.mpr (hstart ▸ h₁)),
    fun b => decide_eq_true_iff, fun x _ => hblocks x⟩,
    htotal ▸ ht, hcount ▸ hc, fun n _ => hinodes n, fun n => ?_, fun n => ?_, fun n _ => hinodes n⟩
  · change Header (fs₀.inodes n)
    rw [hinodes n]
    exact header_empty
  · change (List.range (fs₀.inodes n).size).map _ = []
    rw [hinodes n]
    rfl

end Filesystem

/-- What a build that stays on allocated inodes leaves. -/
theorem buildLog_logged {totalBlocks inodeCount : ℕ} {label : ℕ → ℕ} {arguments : List Argument} {s : Filesystem × Log}
    (ht : totalBlocks < 4294967296) (hc : inodeCount < 4294967296) (hp : ∀ a ∈ arguments, a.Packable)
    (hg : ∀ fs, build false totalBlocks inodeCount label [] = some fs → GroundedAll fs arguments)
    (hb : buildLog totalBlocks inodeCount label arguments = some s) : Logged s := by
  unfold buildLog at hb
  obtain ⟨fs, hnew, hb⟩ := Option.bind_eq_some_iff.mp hb
  obtain ⟨root, halloc, hb⟩ := Option.bind_eq_some_iff.mp hb
  split at hb
  · cases hb
  rename_i hroot
  have hbuilt := built_new ht hc hnew
  have hstart : build false totalBlocks inodeCount label [] =
      some (fs.setInode root { fs.inodes root with type := typeDir, links := 1 }) := by
    unfold build
    rw [hnew, Option.bind_some, halloc, Option.bind_some, if_neg hroot]
    rfl
  have hempty := hbuilt.free root (allocInode_free halloc).1
  have hlog : Logged (fs.setInode root { fs.inodes root with type := typeDir, links := 1 }, []) :=
    hbuilt.allocate (allocInode_free halloc).1 (allocInode_free halloc).2 (by rw [hempty]; exact ⟨rfl, rfl, rfl⟩)
      (by rw [hempty]; exact { header_empty with type_lt := by decide, links_lt := by decide })
      (show typeDir ≠ typeFree by decide)
  exact Logged.applyAll hlog hp (hg _ hstart) hb

end SifarOS.Mkfs
