import SifarOS.PageBytes

/-! # The stack a process starts with

`build_stack` of `kernel/proc.c` and what `_start` of `user/lib/crt0.S` finds: `argc`, the array of pointers with its
`NULL`, and the strings behind it. -/
namespace SifarOS.Paging
open ByteMemory

def userStackPages : ℕ := 16
def argAreaMax : ℕ := 1024
def userStackTop : ℕ := 0x40800000

/-- A string of C without its terminator. With it, it is shorter than memory. -/
structure CString where
  bytes : List UInt8
  nonzero : 0 ∉ bytes
  short : bytes.length + 1 < 4294967296

/-- `strlen(s) + 1` -/
def CString.size (s : CString) : ℕ := s.bytes.length + 1

/-- The string and its terminator. -/
def CString.byte (s : CString) (k : ℕ) : UInt8 := s.bytes.getD k 0

/-- The first loop of `build_stack`: the bytes of all strings together. The result is `none` where it returns -1. -/
def measureLoop (headerLen : ℕ) : List (Option CString) → ℕ → Option ℕ
  | [], stringsLen => some stringsLen
  | none :: _, _ => none
  | some s :: rest, stringsLen =>
    if sub32 (sub32 argAreaMax headerLen) stringsLen < s.size then none else measureLoop headerLen rest (stringsLen + s.size)

/-- The loop that places the strings, and the pointers to them. -/
def placeLoop (base : ℕ) : List CString → ℕ → Memory → Memory × List ℕ
  | [], _, scratch => (scratch, [])
  | s :: rest, offset, scratch =>
    let placed := placeLoop base rest (offset + s.size) (fill scratch offset s.size s.byte)
    (placed.1, u32 (base + offset) :: placed.2)

/-- The loop that stores the pointers. -/
def pointerLoop : List ℕ → ℕ → Memory → Memory
  | [], _, scratch => scratch
  | pointer :: rest, offset, scratch => pointerLoop rest (offset + 4) (store32 scratch offset pointer)

/-- The block of `total` bytes that goes to `base`. -/
def stackBlock (scratch : Memory) (base total headerLen : ℕ) (strings : List CString) : Memory :=
  let placed := placeLoop base strings headerLen (fill scratch 0 total fun _ => 0)
  let scratch := store32 placed.1 0 strings.length
  store32 (pointerLoop placed.2 4 scratch) (4 + strings.length * 4) 0

/-- `build_stack`: the machine and `out_esp`, or nothing where the result is -1. The contents of `scratch` before are
those of the kernel's stack. `argv` is `none` where it is `NULL`. -/
def Machine.buildStack (m : Machine) (pd stackTop : ℕ) (scratch : Memory) (argc : ℤ) (argv : Option (ℕ → Option CString)) :
    Option (Machine × Option ℕ) :=
  if argc < 0 then some (m, none)
  else
    let argc := if 15 < argc then 15 else argc.toNat
    if 0 < argc ∧ argv.isNone then some (m, none)
    else
      let args := (List.range argc).map fun i => argv.bind fun array => array i
      let headerLen := 4 + (argc + 1) * 4
      if argAreaMax < headerLen then some (m, none)
      else
        match measureLoop headerLen args 0 with
        | none => some (m, none)
        | some stringsLen =>
          let total := alignUp (headerLen + stringsLen) 16
          if argAreaMax < total ∨ sub32 stackTop userMin < total then some (m, none)
          else
            let base := sub32 stackTop total
            if base < sub32 stackTop (userStackPages * pageSize) then some (m, none)
            else
              (Machine.writeLoop pd (stackBlock scratch base total headerLen (args.filterMap id)) argAreaMax total base 0 total m).map
                fun written => (written.1, if written.2 < 0 then none else some base)

section stack

variable {s : CString} {strings : List CString} {args : List (Option CString)} {base total headerLen offset n i k x : ℕ}
  {scratch : Memory}

/-- The bytes of all strings together. -/
def stringsSize : List CString → ℕ
  | [] => 0
  | s :: rest => s.size + stringsSize rest

/-! ## The block -/

theorem stringsSize_cons (s : CString) (strings : List CString) : stringsSize (s :: strings) = s.size + stringsSize strings := rfl

/-- The loop adds up what fits, and stops at a `NULL` or at a string that does not. -/
theorem measureLoop_iff (args : List (Option CString)) (hheader : headerLen ≤ argAreaMax) (hn : n ≤ argAreaMax - headerLen) (stringsLen : ℕ) :
    measureLoop headerLen args n = some stringsLen ↔
      ∃ strings, args = strings.map some ∧ stringsLen = n + stringsSize strings ∧ headerLen + stringsLen ≤ argAreaMax := by
  have harea : argAreaMax = 1024 := rfl
  induction args generalizing n with
  | nil =>
    constructor
    · intro h
      obtain rfl := Option.some.inj h
      exact ⟨[], rfl, rfl, by omega⟩
    · rintro ⟨strings, hmap, rfl, -⟩
      obtain rfl : strings = [] := List.map_eq_nil_iff.mp hmap.symm
      rfl
  | cons arg rest ih =>
    cases arg with
    | none =>
      constructor
      · intro h
        cases h
      · rintro ⟨strings, hmap, -⟩
        cases strings with
        | nil => cases hmap
        | cons s strings => cases hmap
    | some s =>
      have hroom : sub32 (sub32 argAreaMax headerLen) n = argAreaMax - headerLen - n := by
        unfold sub32
        omega
      rw [measureLoop, hroom]
      by_cases hfits : argAreaMax - headerLen - n < s.size
      · rw [if_pos hfits]
        constructor
        · intro h
          cases h
        · rintro ⟨strings, hmap, hlen, hle⟩
          cases strings with
          | nil => cases hmap
          | cons s' strings =>
            obtain ⟨hs, -⟩ := List.cons.inj hmap
            obtain rfl := Option.some.inj hs
            rw [stringsSize_cons] at hlen
            omega
      · have hrest := ih (n := n + s.size) (by omega)
        rw [if_neg hfits]
        refine hrest.trans ?_
        constructor
        · rintro ⟨strings, rfl, hlen, hle⟩
          refine ⟨s :: strings, rfl, ?_, hle⟩
          rw [stringsSize_cons]
          omega
        · rintro ⟨strings, hmap, hlen, hle⟩
          cases strings with
          | nil => cases hmap
          | cons s' strings =>
            obtain ⟨hs, hrest⟩ := List.cons.inj hmap
            obtain rfl := Option.some.inj hs
            rw [stringsSize_cons] at hlen
            exact ⟨strings, hrest, by omega, hle⟩

/-- The strings stand one behind the other, and nothing else is written. -/
theorem placeLoop_sameOn (base : ℕ) (strings : List CString) (scratch : Memory) (hx : x < offset ∨ offset + stringsSize strings ≤ x) :
    (placeLoop base strings offset scratch).1 x = scratch x := by
  induction strings generalizing offset scratch with
  | nil => rfl
  | cons s strings ih =>
    rw [stringsSize_cons] at hx
    have hsize : 0 < s.size := Nat.succ_pos _
    rw [placeLoop, ih _ (by omega), fill_of_disjoint _ _ (by omega)]

theorem placeLoop_byte (base offset : ℕ) (scratch : Memory) (hi : i < strings.length) (hk : k < strings[i].size) :
    (placeLoop base strings offset scratch).1 (offset + stringsSize (strings.take i) + k) = strings[i].byte k := by
  induction strings generalizing offset scratch i with
  | nil => cases hi
  | cons s strings ih =>
    cases i with
    | zero =>
      rw [placeLoop, placeLoop_sameOn _ _ _ (by
        left
        exact Nat.add_lt_add_left hk offset)]
      exact fill_at _ _ hk
    | succ i =>
      have hlt : i < strings.length := by simpa using hi
      have hrest := ih (offset + s.size) (fill scratch offset s.size s.byte) hlt hk
      rw [List.take_succ_cons, stringsSize_cons, ← Nat.add_assoc]
      exact hrest

theorem placeLoop_pointers (base : ℕ) (strings : List CString) (offset : ℕ) (scratch : Memory) :
    (placeLoop base strings offset scratch).2 = (List.range strings.length).map fun i => u32 (base + (offset + stringsSize (strings.take i))) := by
  induction strings generalizing offset scratch with
  | nil => rfl
  | cons s strings ih =>
    rw [placeLoop, List.length_cons, List.range_succ_eq_map, List.map_cons, List.map_map, ih]
    refine List.cons_eq_cons.mpr ⟨rfl, ?_⟩
    apply List.map_congr_left
    intro i _
    dsimp only [Function.comp]
    rw [List.take_succ_cons, stringsSize_cons, Nat.add_assoc offset]

theorem pointerLoop_sameOn (pointers : List ℕ) (scratch : Memory) (hx : x < offset ∨ offset + 4 * pointers.length ≤ x) :
    pointerLoop pointers offset scratch x = scratch x := by
  induction pointers generalizing offset scratch with
  | nil => rfl
  | cons pointer rest ih =>
    rw [List.length_cons] at hx
    rw [pointerLoop, ih _ (by omega)]
    exact store32_sameOn scratch pointer (b := x) (n := 1) (by omega) x (Nat.le_refl x) (by omega)

theorem pointerLoop_load (pointers : List ℕ) (offset : ℕ) (scratch : Memory) (hi : i < pointers.length) :
    load32 (pointerLoop pointers offset scratch) (offset + 4 * i) = pointers[i] % 4294967296 := by
  induction pointers generalizing offset scratch i with
  | nil => cases hi
  | cons pointer rest ih =>
    cases i with
    | zero =>
      rw [pointerLoop, Nat.mul_zero, Nat.add_zero, List.getElem_cons_zero, ← load32_store32 scratch offset pointer]
      exact load32_congr fun x hlo hhi => pointerLoop_sameOn _ _ (by omega)
    | succ i =>
      have hrest := ih (offset + 4) (store32 scratch offset pointer) (by simpa using hi)
      rw [pointerLoop, List.getElem_cons_succ, ← hrest]
      congr 1
      omega

theorem stringsSize_take (hi : i < strings.length) : stringsSize (strings.take i) + strings[i].size ≤ stringsSize strings := by
  induction strings generalizing i with
  | nil => cases hi
  | cons s strings ih =>
    rw [stringsSize_cons]
    cases i with
    | zero =>
      rw [List.take_zero, List.getElem_cons_zero]
      change 0 + s.size ≤ _
      omega
    | succ i =>
      have hrest := ih (i := i) (by simpa using hi)
      rw [List.take_succ_cons, stringsSize_cons, List.getElem_cons_succ]
      omega

/-- The block as it is to be: `argc`, the pointers with their `NULL`, the strings. -/
structure Block (block : Memory) (base headerLen : ℕ) (strings : List CString) : Prop where
  argc : load32 block 0 = strings.length
  pointer : ∀ i < strings.length, load32 block (4 + 4 * i) = base + (headerLen + stringsSize (strings.take i))
  null : load32 block (4 + 4 * strings.length) = 0
  byte : ∀ i (h : i < strings.length), ∀ k < strings[i].size, block (headerLen + stringsSize (strings.take i) + k) = strings[i].byte k

theorem stackBlock_spec (base total : ℕ) (strings : List CString) (scratch : Memory) (hheader : headerLen = 4 + (strings.length + 1) * 4) (hstrings : headerLen + stringsSize strings ≤ total)
    (hbase : base + total < 4294967296) : Block (stackBlock scratch base total headerLen strings) base headerLen strings := by
  unfold stackBlock
  dsimp only
  have hpointers := placeLoop_pointers base strings headerLen (fill scratch 0 total fun _ => 0)
  have hbytes := fun i k (hi : i < strings.length) (hk : k < strings[i].size) =>
    placeLoop_byte base headerLen (fill scratch 0 total fun _ => 0) hi hk
  generalize placeLoop base strings headerLen (fill scratch 0 total fun _ => 0) = placed at *
  have hlength : placed.2.length = strings.length := by
    rw [hpointers, List.length_map, List.length_range]
  -- the last two stores leave the strings alone
  have hout : ∀ x, headerLen ≤ x →
      store32 (pointerLoop placed.2 4 (store32 placed.1 0 strings.length)) (4 + strings.length * 4) 0 x = placed.1 x := by
    intro x hx
    rw [store32_sameOn _ 0 (b := x) (n := 1) (by omega) x (Nat.le_refl x) (by omega), pointerLoop_sameOn _ _ (by omega),
      store32_sameOn _ strings.length (b := x) (n := 1) (by omega) x (Nat.le_refl x) (by omega)]
  refine ⟨?_, fun i hi => ?_, ?_, fun i hi k hk => ?_⟩
  · rw [load32_store32_of_disjoint _ _ (by omega), load32_congr (m := store32 placed.1 0 strings.length) fun x hlo hhi =>
      pointerLoop_sameOn _ _ (by omega), load32_store32]
    exact Nat.mod_eq_of_lt (by omega)
  · have hin : i < placed.2.length := by omega
    have hle := stringsSize_take hi
    have hvalue : placed.2[i] = u32 (base + (headerLen + stringsSize (strings.take i))) := by
      simp only [hpointers, List.getElem_map, List.getElem_range]
    rw [load32_store32_of_disjoint _ _ (by omega), pointerLoop_load _ _ _ hin, hvalue, u32_of_lt (by omega)]
    exact Nat.mod_eq_of_lt (by omega)
  · rw [Nat.mul_comm 4, load32_store32]
  · rw [hout _ (by omega)]
    exact hbytes i k hi hk

/-! ## The new process -/

def stackFloor : ℕ := userStackTop - userStackPages * pageSize

/-- The pages of the stack. -/
def StackPage (p : ℕ) : Prop := Machine.Touches stackFloor (userStackPages * pageSize) p

/-- What `_start` finds at `esp`: `argc`, then the array of `argc` pointers and `NULL`. All of it is on the stack, where
the process may read and write it. -/
structure StartStack (m : Machine) (pd esp : ℕ) (strings : List CString) : Prop where
  aligned : esp % 16 = 0
  inside : stackFloor ≤ esp ∧ esp < userStackTop
  usable : ∀ virt, esp ≤ virt → virt < userStackTop → m.UserByte pd true virt
  argc : load32 (m.userRead (some pd)) esp = strings.length
  argv : ∀ i (h : i < strings.length), ∃ pointer, load32 (m.userRead (some pd)) (esp + 4 + 4 * i) = pointer ∧
    esp ≤ pointer ∧ pointer + strings[i].size ≤ userStackTop ∧
      (∀ k (hk : k < strings[i].bytes.length), m.userRead (some pd) (pointer + k) = strings[i].bytes[k]) ∧
        m.userRead (some pd) (pointer + strings[i].bytes.length) = 0
  null : load32 (m.userRead (some pd)) (esp + 4 + 4 * strings.length) = 0

/-- The arguments are there and they fit. -/
structure Fits (argc : ℤ) (argv : Option (ℕ → Option CString)) (strings : List CString) : Prop where
  length : argc = strings.length
  string : ∀ i (h : i < strings.length), ∃ array, argv = some array ∧ array i = some strings[i]
  room : 4 + 4 * (strings.length + 1) + stringsSize strings ≤ argAreaMax

section process

variable {m m' m₀ : Machine} {pd : ℕ} {argc : ℤ} {argv : Option (ℕ → Option CString)}

/-- The pointers of `argv` are those of the strings. -/
theorem args_eq {args : Option (ℕ → Option CString)} :
    (List.range n).map (fun i => args.bind fun array => array i) = strings.map some ↔
      strings.length = n ∧ ∀ i (h : i < strings.length), ∃ array, args = some array ∧ array i = some strings[i] := by
  constructor
  · intro h
    have hlength : strings.length = n := by
      have hlen := congrArg List.length h
      simpa using hlen.symm
    refine ⟨hlength, fun i hi => ?_⟩
    have hi' : i < n := by omega
    have hat : args.bind (fun array => array i) = some strings[i] := by
      have hget := congrArg (fun l => l[i]?) h
      simpa [hi, hi'] using hget
    obtain ⟨array, ha, hai⟩ := Option.bind_eq_some_iff.mp hat
    exact ⟨array, ha, hai⟩
  · rintro ⟨rfl, hall⟩
    apply List.ext_getElem
    · simp
    · intro i hi hi'
      obtain ⟨array, ha, hai⟩ := hall i (by simpa using hi)
      simp [ha, hai]

theorem sub32_of_le {x y : ℕ} (h : y ≤ x) (hx : x < 4294967296) : sub32 x y = x - y := by
  unfold sub32
  omega

/-- `build_stack` writes the block onto the stack, or it finds that the arguments do not fit and changes nothing. -/
theorem buildStack_spec (h : m₀.Grown m pd S) (hstack : ∀ p, StackPage p → S p) (scratch : Memory) (argc : ℤ)
    (argv : Option (ℕ → Option CString)) :
    ((¬∃ strings, Fits (min argc 15) argv strings) ∧ m.buildStack pd userStackTop scratch argc argv = some (m, none)) ∨
      ∃ strings, Fits (min argc 15) argv strings ∧ ∃ m' total block, total % 16 = 0 ∧ 4 + 4 * (strings.length + 1) + stringsSize strings ≤ total ∧
        total ≤ argAreaMax ∧ m.buildStack pd userStackTop scratch argc argv = some (m', some (userStackTop - total)) ∧ m₀.Grown m' pd S ∧
          Block block (userStackTop - total) (4 + (strings.length + 1) * 4) strings ∧
            m.Written m' pd S (userStackTop - total) total block := by
  have harea : argAreaMax = 1024 := rfl
  have htop : userStackTop = 0x40800000 := rfl
  unfold Machine.buildStack
  by_cases hneg : argc < 0
  · rw [if_pos hneg]
    refine Or.inl ⟨?_, rfl⟩
    rintro ⟨strings, hfits⟩
    have hlength := hfits.length
    omega
  rw [if_neg hneg]
  dsimp only
  obtain ⟨n, hn⟩ : ∃ n, (if 15 < argc then 15 else argc.toNat) = n := ⟨_, rfl⟩
  have hmin : min argc 15 = n ∧ n ≤ 15 := by
    rw [← hn]
    split <;> omega
  rw [hn, hmin.1]
  by_cases hnull : 0 < n ∧ argv.isNone = true
  · rw [if_pos hnull]
    refine Or.inl ⟨?_, rfl⟩
    rintro ⟨strings, hfits⟩
    have hlength := hfits.length
    obtain ⟨array, ha, -⟩ := hfits.string 0 (by omega)
    rw [ha] at hnull
    cases hnull.2
  rw [if_neg hnull, if_neg (by omega)]
  have hheader : 4 + (n + 1) * 4 ≤ argAreaMax := by omega
  have hmeasure := measureLoop_iff (n := 0) ((List.range n).map fun i => argv.bind fun array => array i) hheader (Nat.zero_le _)
  cases hloop : measureLoop (4 + (n + 1) * 4) ((List.range n).map fun i => argv.bind fun array => array i) 0 with
  | none =>
    refine Or.inl ⟨?_, rfl⟩
    rintro ⟨strings, hfits⟩
    have hlength := hfits.length
    have hroom := hfits.room
    have hsome := (hmeasure (0 + stringsSize strings)).mpr ⟨strings, args_eq.mpr ⟨by omega, hfits.string⟩, rfl, by omega⟩
    rw [hloop] at hsome
    cases hsome
  | some stringsLen =>
    obtain ⟨strings, hargs, hlen, hroom⟩ := (hmeasure stringsLen).mp hloop
    obtain ⟨rfl, hstring⟩ := args_eq.mp hargs
    have hreduce : ((List.range strings.length).map fun i => argv.bind fun array => array i).filterMap id = strings := by
      rw [hargs, List.filterMap_map]
      exact List.filterMap_some
    have htotal : alignUp (4 + (strings.length + 1) * 4 + stringsLen) 16 = (4 + (strings.length + 1) * 4 + stringsLen + 15) / 16 * 16 := by
      unfold alignUp u32
      omega
    dsimp only
    rw [hreduce, htotal]
    obtain ⟨total, ht⟩ : ∃ total, (4 + (strings.length + 1) * 4 + stringsLen + 15) / 16 * 16 = total := ⟨_, rfl⟩
    have hbounds : total % 16 = 0 ∧ 4 + (strings.length + 1) * 4 + stringsLen ≤ total ∧ total ≤ 1024 := by omega
    have hbase : sub32 userStackTop total = userStackTop - total := sub32_of_le (by omega) (by omega)
    rw [ht, hbase, sub32_of_le (by decide) (by decide), sub32_of_le (by decide) (by decide)]
    rw [if_neg (by unfold userMin; omega), if_neg (by unfold userStackPages pageSize; omega)]
    have hin : 0 + total ≤ argAreaMax := by omega
    have hpages : ∀ virt, userStackTop - total ≤ virt → virt < userStackTop - total + total → S (virt / pageSize) := by
      intro virt hlo hhi
      refine hstack _ ⟨virt, ?_, ?_, rfl⟩
      · unfold stackFloor userStackPages pageSize
        omega
      · unfold stackFloor userStackPages pageSize
        omega
    obtain ⟨m', hwrite, hgrown, hwritten⟩ := h.writeLoop (stackBlock scratch (userStackTop - total) total (4 + (strings.length + 1) * 4) strings)
      hpages (Nat.le_refl _) hin (by omega)
    have hblock := stackBlock_spec (userStackTop - total) total strings scratch rfl (by omega) (by omega)
    simp only [Nat.zero_add] at hwritten
    refine Or.inr ⟨strings, ⟨rfl, hstring, by omega⟩, m', total, _, hbounds.1, by omega, by omega, ?_, hgrown, hblock, hwritten⟩
    rw [hwrite]
    rfl

/-- The stack that `vmm_alloc_range` has made, before anything is on it. -/
theorem stack_filled {flags : ℕ} (hspace : m₀.Space pd) (hfree : ∀ p, StackPage p → m₀.view pd p = none)
    (halloc : m₀.vmmAllocRange pd stackFloor (userStackPages * pageSize) flags = (m, 0)) : m₀.Filled m pd flags StackPage := by
  rcases hspace.allocRange_new stackFloor (userStackPages * pageSize) flags (by decide) (by decide) (by decide)
    (fun _ => ⟨by decide, by decide⟩) hfree with ⟨m', he, -⟩ | ⟨m', he, hg⟩
  · rw [halloc] at he
    cases he
  · rw [halloc] at he
    obtain ⟨rfl, -⟩ := Prod.mk.inj he
    exact hg

theorem Fits.unique {strings' : List CString} (h : Fits argc argv strings) (h' : Fits argc argv strings') : strings' = strings := by
  have hlength : strings'.length = strings.length := by
    have hl := h.length
    have hl' := h'.length
    omega
  apply List.ext_getElem hlength
  intro i hi hi'
  obtain ⟨array, ha, hai⟩ := h.string i hi'
  obtain ⟨array', ha', hai'⟩ := h'.string i hi
  obtain rfl := Option.some.inj (ha.symm.trans ha')
  exact Option.some.inj (hai'.symm.trans hai)

theorem stackPage_of (hlo : stackFloor ≤ x) (hhi : x < userStackTop) : StackPage (x / pageSize) := by
  refine ⟨x, hlo, ?_, rfl⟩
  unfold stackFloor userStackPages pageSize
  unfold userStackTop at *
  omega

/-- The block that stands below the top of the stack, read by the process. -/
theorem Block.startStack {block : Memory} (h : Block block (userStackTop - total) (4 + (strings.length + 1) * 4) strings)
    (hfilled : m₀.Filled m pd (ptePresent ||| pteWrite ||| pteUser) StackPage)
    (hwritten : m.Written m' pd StackPage (userStackTop - total) total block) (halign : total % 16 = 0)
    (hroom : 4 + 4 * (strings.length + 1) + stringsSize strings ≤ total) (htotal : total ≤ argAreaMax) :
    StartStack m' pd (userStackTop - total) strings := by
  have htop : userStackTop = 0x40800000 := rfl
  have harea : argAreaMax = 1024 := rfl
  have hfloor : stackFloor = 0x407F0000 := rfl
  have hentry : ∀ p, StackPage p → m'.pte pd p = Machine.mapEntry (m.frameAt pd p) (ptePresent ||| pteWrite ||| pteUser) := by
    intro p hp
    rw [hwritten.pte p (hfilled.bound p hp)]
    exact hfilled.entry p hp
  have hpage : ∀ x < total, StackPage ((userStackTop - total + x) / pageSize) := fun x hx => stackPage_of (by omega) (by omega)
  have hread : ∀ x < total, m'.userRead (some pd) (userStackTop - total + x) = block x := by
    intro x hx
    have hin := hpage x hx
    rw [Machine.userRead_eq (by rw [hentry _ hin]; exact Machine.mapEntry_present _ _), hwritten.byte _ hin, fill_at _ _ hx]
  have hword : ∀ a, a + 4 ≤ total → load32 (m'.userRead (some pd)) (userStackTop - total + a) = load32 block a := by
    intro a ha
    have h₁ := hread (a + 1) (by omega)
    have h₂ := hread (a + 2) (by omega)
    have h₃ := hread (a + 3) (by omega)
    rw [← Nat.add_assoc] at h₁ h₂ h₃
    unfold load32
    rw [hread a (by omega), h₁, h₂, h₃]
  refine ⟨by omega, ⟨by omega, by omega⟩, fun virt hlo hhi => ?_, hword 0 (by omega) |>.trans h.argc, fun i hi => ?_, ?_⟩
  · have hin : StackPage (virt / pageSize) := stackPage_of (by omega) hhi
    have huser := hfilled.reach _ hin (by decide)
    rw [Machine.userByte_iff, hentry _ hin]
    refine ⟨?_, Machine.mapEntry_present _ _, ?_, fun _ => ?_⟩
    · unfold Machine.UserTable at huser ⊢
      rw [hwritten.directory]
      exact huser
    · rw [Machine.mapEntry_and _ (by decide) (by decide)]
      decide
    · rw [Machine.mapEntry_and _ (by decide) (by decide)]
      decide
  · have hle := stringsSize_take hi
    have hstring : ∀ k < strings[i].size, m'.userRead (some pd) (userStackTop - total + (4 + (strings.length + 1) * 4 +
        stringsSize (strings.take i)) + k) = strings[i].byte k := by
      intro k hk
      rw [Nat.add_assoc, hread _ (by omega)]
      exact h.byte i hi k hk
    refine ⟨userStackTop - total + (4 + (strings.length + 1) * 4 + stringsSize (strings.take i)), ?_, ?_, ?_, fun k hk => ?_, ?_⟩
    · rw [Nat.add_assoc, hword _ (by omega)]
      exact h.pointer i hi
    · omega
    · omega
    · rw [hstring k (Nat.lt_succ_of_lt hk)]
      unfold CString.byte
      rw [List.getD_eq_getElem?_getD, List.getElem?_eq_getElem hk, Option.getD_some]
    · rw [hstring _ (Nat.lt_succ_self _)]
      unfold CString.byte
      rw [List.getD_eq_getElem?_getD, List.getElem?_eq_none (Nat.le_refl _), Option.getD_none]
  · rw [Nat.add_assoc, hword _ (by omega)]
    exact h.null

/-- With up to 15 arguments `build_stack` succeeds just where they fit, and then the process finds them. -/
theorem build_stack_iff (hspace : m₀.Space pd) (hfree : ∀ p, StackPage p → m₀.view pd p = none)
    (halloc : m₀.vmmAllocRange pd stackFloor (userStackPages * pageSize) (ptePresent ||| pteWrite ||| pteUser) = (m, 0))
    (scratch : Memory) (argc : ℤ) (hargc : argc ≤ 15) (argv : Option (ℕ → Option CString)) :
    ∃ m' r, m.buildStack pd userStackTop scratch argc argv = some (m', r) ∧
      (∀ strings, Fits argc argv strings → ∃ esp, r = some esp ∧ StartStack m' pd esp strings) ∧
        ((¬∃ strings, Fits argc argv strings) → r = none) := by
  have hfilled := stack_filled hspace hfree halloc
  have hspec := buildStack_spec hfilled.toGrown (fun _ hp => hp) scratch argc argv
  rw [Int.min_eq_left hargc] at hspec
  rcases hspec with ⟨hnone, he⟩ | ⟨strings, hfits, m', total, block, halign, hroom, htotal, he, -, hblock, hwritten⟩
  · exact ⟨m, none, he, fun strings hfits => absurd ⟨strings, hfits⟩ hnone, fun _ => rfl⟩
  · refine ⟨m', _, he, fun strings' hfits' => ?_, fun hnone => absurd ⟨strings, hfits⟩ hnone⟩
    rw [hfits.unique hfits']
    exact ⟨_, rfl, hblock.startStack hfilled hwritten halign hroom htotal⟩

/-- `ls` -/
def lsString : CString := ⟨[0x6C, 0x73], by decide, by decide⟩

theorem build_stack_iff_ls : ∃ m m' esp, Machine.noTables.vmmAllocRange 1 stackFloor (userStackPages * pageSize)
    (ptePresent ||| pteWrite ||| pteUser) = (m, 0) ∧
      m.buildStack 1 userStackTop (fun _ => 0xFF) 1 (some fun _ => some lsString) = some (m', some esp) ∧ StartStack m' 1 esp [lsString] := by
  have hrun : (Machine.noTables.vmmAllocRange 1 stackFloor (userStackPages * pageSize)
      (ptePresent ||| pteWrite ||| pteUser)).2 = 0 := by
    decide +kernel
  have hfits : Fits 1 (some fun _ => some lsString) [lsString] := by
    refine ⟨rfl, fun i hi => ⟨_, rfl, ?_⟩, by decide⟩
    obtain rfl : i = 0 := Nat.lt_one_iff.mp hi
    rfl
  obtain ⟨m, halloc⟩ : ∃ m, Machine.noTables.vmmAllocRange 1 stackFloor (userStackPages * pageSize)
      (ptePresent ||| pteWrite ||| pteUser) = (m, 0) := by
    generalize Machine.noTables.vmmAllocRange 1 stackFloor (userStackPages * pageSize) (ptePresent ||| pteWrite ||| pteUser) = r at hrun
    exact ⟨r.1, Prod.ext rfl hrun⟩
  obtain ⟨m', r, he, hstart, -⟩ := build_stack_iff Machine.noTables_space (fun p _ => Machine.noTables_view p) halloc
    (fun _ => 0xFF) 1 (by decide) (some fun _ => some lsString)
  obtain ⟨esp, rfl, hstack⟩ := hstart _ hfits
  exact ⟨m, m', esp, halloc, he, hstack⟩

end process

end stack

end SifarOS.Paging
