import SifarOS.UserAccess
import Mathlib.Logic.Function.Basic

/-! # Strings from a process

`proc_copy_user_string` of `kernel/proc.c`. The process that runs is given by its directory; there is
none when a thread of the kernel runs. The buffer is memory of the kernel, no page of the process. -/
namespace SifarOS.Paging
open ByteMemory

namespace Machine

variable (m : Machine) (current : Option ℕ)

/-- The byte that the processor reads at an address of the process. -/
def userRead (virt : ℕ) : UInt8 :=
  match current with
  | none => 0
  | some pd =>
    let pte := m.mem (frameOf (m.mem pd (virt / pdeSpan))) (pteIndex virt)
    wordByte (m.mem (frameOf pte) (virt % pageSize / 4)) (virt % 4)

def procUserRangeOk (ptr len : ℕ) : Bool :=
  match current with
  | none => false
  | some pd => m.vmmAccessOkIn pd ptr len false

/-- The cast of a `size_t` to `int`. -/
def toInt (i : ℕ) : ℤ := if i < 2147483648 then i else i - 4294967296

/-- The loop of `proc_copy_user_string` from byte `i` on, which may make `left` turns. -/
def copyLoop (user size : ℕ) : ℕ → ℕ → (ℕ → UInt8) → (ℕ → UInt8) × ℤ
  | 0, _, out => (Function.update out (size - 1) 0, -1)
  | left + 1, i, out =>
    if m.procUserRangeOk current (u32 (user + i)) 1 = false then (Function.update out 0 0, -1)
    else
      let byte := m.userRead current (u32 (user + i))
      let out := Function.update out i byte
      if byte = 0 then (out, toInt i) else copyLoop user size left (i + 1) out

/-- `proc_copy_user_string`: the buffer afterwards and the result. -/
def procCopyUserString (user : ℕ) (out : ℕ → UInt8) (size : ℕ) : (ℕ → UInt8) × ℤ :=
  if user = 0 ∨ size = 0 then (out, -1) else m.copyLoop current user size (size - 1) 0 out

/-- The process may read the byte. -/
def Readable (virt : ℕ) : Prop := ∃ pd, current = some pd ∧ pd ≠ 0 ∧ userMin ≤ virt ∧ virt < userMax ∧ m.UserByte pd false virt

/-- At the address there is a string of `n` bytes that the process may read, with its terminator. -/
structure StringAt (user n : ℕ) : Prop where
  readable : ∀ i ≤ n, m.Readable current (user + i)
  nonzero : ∀ i < n, m.userRead current (user + i) ≠ 0
  terminator : m.userRead current (user + n) = 0

/-- The strings that fit are copied, for all others the result is -1, and no byte behind the buffer is
written. -/
structure StringCopied (user : ℕ) (out : ℕ → UInt8) (size : ℕ) (r : (ℕ → UInt8) × ℤ) : Prop where
  accepted : ∀ n : ℕ, (r.2 = n ∧ (∀ i < n, r.1 i = m.userRead current (user + i)) ∧ r.1 n = 0) ↔
    m.StringAt current user n ∧ n + 1 ≤ size
  rejected : (∀ n, m.StringAt current user n → size < n + 1) → r.2 = -1
  terminated : ∃ i < size, r.1 i = 0
  inside : ∀ i, size ≤ i → r.1 i = out i

end Machine

section strings
open Machine

variable {m : Machine} {current : Option ℕ} {user size i left n : ℕ} {out : ℕ → UInt8}

theorem rangeOk_iff (m : Machine) (current : Option ℕ) (virt : ℕ) :
    m.procUserRangeOk current virt 1 = true ↔ m.Readable current virt := by
  cases current with
  | none => simp [procUserRangeOk, Readable]
  | some pd =>
    by_cases hpd : pd = 0
    · simp [procUserRangeOk, Readable, vmmAccessOkIn, hpd]
    · simp only [procUserRangeOk, access_ok_iff m hpd, Readable, Option.some.injEq, exists_eq_left']
      constructor
      · rintro (h | ⟨hlo, hhi, hall⟩)
        · cases h
        · exact ⟨hpd, hlo, by omega, hall virt (Nat.le_refl _) (by omega)⟩
      · rintro ⟨-, hlo, hhi, hbyte⟩
        refine Or.inr ⟨hlo, by omega, fun v hv hv' => ?_⟩
        obtain rfl : v = virt := by omega
        exact hbyte

/-- A string ends where its first zero byte is. -/
theorem Machine.StringAt.unique {k : ℕ} (h : m.StringAt current user n) (h' : m.StringAt current user k) : n = k := by
  rcases Nat.lt_trichotomy n k with hlt | rfl | hlt
  · exact absurd h.terminator (h'.nonzero n hlt)
  · rfl
  · exact absurd h'.terminator (h.nonzero k hlt)

/-- Readable bytes are in the users' window, so the address after them does not wrap. -/
theorem u32_next (huser : user < 4294967296) (h : ∀ j < i, m.Readable current (user + j)) : u32 (user + i) = user + i := by
  have htop : userMax = 0xD0000000 := rfl
  apply u32_of_lt
  cases i with
  | zero => exact huser
  | succ i =>
    obtain ⟨-, -, -, -, hhi, -⟩ := h i (Nat.lt_succ_self i)
    omega

/-- The loop, when the bytes before `i` are no terminator. -/
theorem copyLoop_spec (huser : user < 4294967296) (hi : i + left + 1 = size) (hread : ∀ j < i, m.Readable current (user + j))
    (hne : ∀ j < i, m.userRead current (user + j) ≠ 0) :
    (∃ n, n + 1 < size ∧ m.StringAt current user n ∧ m.copyLoop current user size left i out =
      ((fun j => if i ≤ j ∧ j ≤ n then m.userRead current (user + j) else out j), toInt n)) ∨
    ((∀ n, m.StringAt current user n → size ≤ n + 1) ∧ (m.copyLoop current user size left i out).2 = -1 ∧
      (∃ j < size, (m.copyLoop current user size left i out).1 j = 0) ∧
      ∀ j, size ≤ j → (m.copyLoop current user size left i out).1 j = out j) := by
  induction left generalizing i out with
  | zero =>
    refine Or.inr ⟨fun n hn => ?_, rfl, ⟨size - 1, by omega, Function.update_self ..⟩, fun j hj => Function.update_of_ne (by omega) ..⟩
    by_contra hlt
    exact hne n (by omega) hn.terminator
  | succ left ih =>
    have hnext := u32_next huser hread
    unfold copyLoop
    rw [hnext]
    by_cases hok : m.procUserRangeOk current (user + i) 1 = false
    · rw [if_pos hok]
      refine Or.inr ⟨fun n hn => ?_, rfl, ⟨0, by omega, by simp⟩, fun j hj => Function.update_of_ne (by omega) ..⟩
      by_contra hlt
      rcases Nat.lt_or_ge n i with hni | hni
      · exact hne n hni hn.terminator
      · have hbyte := (rangeOk_iff m current (user + i)).mpr (hn.readable i hni)
        rw [hok] at hbyte
        cases hbyte
    rw [if_neg hok]
    dsimp only
    have hbyte := (rangeOk_iff m current (user + i)).mp (by simpa using hok)
    have hread' : ∀ j < i + 1, m.Readable current (user + j) := by
      intro j hj
      rcases Nat.lt_succ_iff_lt_or_eq.mp hj with hj | rfl
      · exact hread j hj
      · exact hbyte
    by_cases hzero : m.userRead current (user + i) = 0
    · rw [if_pos hzero]
      refine Or.inl ⟨i, by omega, ⟨fun j hj => hread' j (Nat.lt_succ_of_le hj), hne, hzero⟩, ?_⟩
      congr 1
      funext j
      by_cases hj : j = i
      · subst hj
        simp
      · rw [Function.update_of_ne hj, if_neg (by omega)]
    · rw [if_neg hzero]
      have hne' : ∀ j < i + 1, m.userRead current (user + j) ≠ 0 := by
        intro j hj
        rcases Nat.lt_succ_iff_lt_or_eq.mp hj with hj | rfl
        · exact hne j hj
        · exact hzero
      rcases @ih (i + 1) (Function.update out i (m.userRead current (user + i))) (by omega) hread' hne' with
        ⟨n, hlt, hn, hrest⟩ | ⟨hnone, hres, hterm, hinside⟩
      · refine Or.inl ⟨n, hlt, hn, ?_⟩
        have hin : i ≤ n := by
          by_contra hni
          exact hne n (by omega) hn.terminator
        rw [hrest]
        congr 1
        funext j
        by_cases hj : j = i
        · subst hj
          rw [if_neg (by omega), if_pos ⟨Nat.le_refl _, hin⟩, Function.update_self]
        · rw [Function.update_of_ne hj]
          exact if_congr (by omega) rfl rfl
      · refine Or.inr ⟨hnone, hres, hterm, fun j hj => ?_⟩
        rw [hinside j hj]
        exact Function.update_of_ne (by omega) ..

theorem toInt_eq (hi : i < 4294967296) (h : toInt i = n) : i = n ∧ i < 2147483648 := by
  unfold toInt at h
  split at h <;> omega

theorem Machine.StringAt.length_lt (h : m.StringAt current user n) : n < 4294967296 := by
  obtain ⟨-, -, -, -, hhi, -⟩ := h.readable n (Nat.le_refl _)
  have htop : userMax = 0xD0000000 := rfl
  omega

end strings

/-- A string is taken as it is, unless it fills the buffer to its last byte or is longer than an `int` can say;
and a null pointer leaves the buffer as it was. -/
theorem copy_user_string_iff (m : Machine) (current : Option ℕ) {user size : ℕ} (huser : user < 4294967296) (hsize : 1 ≤ size)
    (out : ℕ → UInt8) :
    m.StringCopied current user out size (m.procCopyUserString current user out size) ↔
      (user ≠ 0 ∨ ∃ i < size, out i = 0) ∧
      ∀ n, m.StringAt current user n → n + 1 ≤ size → n + 1 < size ∧ n < 2147483648 := by
  unfold Machine.procCopyUserString
  by_cases hnull : user = 0
  · subst hnull
    rw [if_pos (Or.inl rfl)]
    have hnone : ∀ n, ¬m.StringAt current 0 n := by
      intro n hn
      obtain ⟨-, -, -, hlo, -⟩ := hn.readable 0 (Nat.zero_le _)
      exact absurd hlo (by decide)
    constructor
    · intro h
      exact ⟨Or.inr h.terminated, fun n hn => absurd hn (hnone n)⟩
    · rintro ⟨hout, -⟩
      refine ⟨fun n => ?_, fun _ => rfl, hout.resolve_left (by simp), fun _ _ => rfl⟩
      refine iff_of_false ?_ fun hn => hnone n hn.1
      rintro ⟨h : (-1 : ℤ) = n, -⟩
      omega
  rw [if_neg (by omega)]
  have hspec := @copyLoop_spec m current user size 0 (size - 1) out huser (by omega) (by simp) (by simp)
  rcases hspec with ⟨n, hlt, hn, heq⟩ | ⟨hnone, hres, hterm, hinside⟩
  · rw [heq]
    constructor
    · intro h
      refine ⟨Or.inl hnull, fun k hk _ => ?_⟩
      obtain rfl := hk.unique hn
      obtain ⟨hint, -⟩ := (h.accepted k).mpr ⟨hk, by omega⟩
      exact ⟨hlt, (toInt_eq hk.length_lt hint).2⟩
    · rintro ⟨-, hall⟩
      have hsmall := (hall n hn (by omega)).2
      refine ⟨fun k => ⟨?_, ?_⟩, fun hlong => ?_, ⟨n, by omega, ?_⟩, fun i hi => if_neg (by omega)⟩
      · rintro ⟨hint, -, -⟩
        obtain ⟨rfl, -⟩ := toInt_eq hn.length_lt hint
        exact ⟨hn, by omega⟩
      · rintro ⟨hk, -⟩
        obtain rfl := hk.unique hn
        refine ⟨if_pos hsmall, fun i hi => if_pos ⟨Nat.zero_le _, by omega⟩, ?_⟩
        exact (if_pos ⟨Nat.zero_le _, Nat.le_refl _⟩).trans hk.terminator
      · exact absurd (hlong n hn) (by omega)
      · exact (if_pos ⟨Nat.zero_le _, Nat.le_refl _⟩).trans hn.terminator
  · constructor
    · intro h
      refine ⟨Or.inl hnull, fun k hk hfit => ?_⟩
      obtain ⟨hint, -⟩ := (h.accepted k).mpr ⟨hk, hfit⟩
      omega
    · rintro ⟨-, hall⟩
      refine ⟨fun k => ?_, fun _ => hres, hterm, hinside⟩
      refine iff_of_false ?_ fun hk => ?_
      · rintro ⟨h, -⟩
        omega
      · have hlong := hnone k hk.1
        have hshort := (hall k hk.1 hk.2).1
        omega

/-- `abc` into a buffer of five bytes. -/
theorem copy_user_string_iff_abc : (twoPages.procCopyUserString (some 1) 0x40000000 (fun _ => 0xFF) 5).2 = 3 ∧
    twoPages.StringCopied (some 1) 0x40000000 (fun _ => 0xFF) 5 (twoPages.procCopyUserString (some 1) 0x40000000 (fun _ => 0xFF) 5) := by
  refine ⟨by decide, (copy_user_string_iff twoPages (some 1) (by decide) (by decide) _).mpr ⟨Or.inl (by decide), ?_⟩⟩
  intro n hn _
  have hthree : n ≤ 3 := by
    by_contra hlong
    exact hn.nonzero 3 (by omega) (by decide)
  omega

/-- `abc` does not get into a buffer of four. -/
theorem copy_user_string_rejects : twoPages.StringAt (some 1) 0x40000000 3 ∧
    ¬twoPages.StringCopied (some 1) 0x40000000 (fun _ => 0xFF) 4 (twoPages.procCopyUserString (some 1) 0x40000000 (fun _ => 0xFF) 4) := by
  have hrange : ∀ i ≤ 3, twoPages.procUserRangeOk (some 1) (0x40000000 + i) 1 = true := by decide
  have habc : twoPages.StringAt (some 1) 0x40000000 3 := by
    refine ⟨fun i hi => ?_, by decide, by decide⟩
    exact (rangeOk_iff twoPages (some 1) _).mp (hrange i hi)
  refine ⟨habc, fun h => ?_⟩
  have hresult := ((h.accepted 3).mpr ⟨habc, by decide⟩).1
  exact absurd hresult (by decide)

end SifarOS.Paging
