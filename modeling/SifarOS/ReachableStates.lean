import Mathlib.Data.Nat.Notation
import Mathlib.Logic.Function.Iterate

/-! # Reachable states of a transition relation

The induction that every safety result of this development goes through: a property of the
initial states that one step preserves holds after every run. -/
namespace SifarOS.ReachableStates

variable {σ : Type*}

/-- The states some run of `step` visits when it begins in a state of `init`. -/
inductive Reachable (init : σ → Prop) (step : σ → σ → Prop) : σ → Prop
  | start {s : σ} (h : init s) : Reachable init step s
  | next {s t : σ} (h : Reachable init step s) (hs : step s t) : Reachable init step t

variable {init : σ → Prop} {step : σ → σ → Prop} {P : σ → Prop}

theorem Reachable.invariant {s : σ} (h : Reachable init step s) (h0 : ∀ s, init s → P s)
    (hstep : ∀ s t, P s → step s t → P t) : P s := by
  induction h with
  | start h => exact h0 _ h
  | next _ hs ih => exact hstep _ _ ih hs

theorem Reachable.mono {step' : σ → σ → Prop} {s : σ} (h : Reachable init step s) (hle : ∀ s t, step s t → step' s t) :
    Reachable init step' s := by
  induction h with
  | start h => exact .start h
  | next _ hs ih => exact ih.next (hle _ _ hs)

/-- The state after a list of inputs, when every one of them is accepted. -/
def follow {α : Type*} (next : σ → α → Option σ) : σ → List α → Option σ
  | s, [] => some s
  | s, a :: rest => (next s a).bind (follow next · rest)

theorem Reachable.follow {α : Type*} {f : σ → α → Option σ} (hf : ∀ s a t, f s a = some t → step s t)
    {s t : σ} {l : List α} (hs : Reachable init step s) (h : follow f s l = some t) : Reachable init step t := by
  induction l generalizing s with
  | nil =>
    obtain rfl := Option.some.inj h
    exact hs
  | cons a rest ih =>
    obtain ⟨s₁, h₁, h₂⟩ := Option.bind_eq_some_iff.mp h
    exact ih (.next hs (hf s a s₁ h₁)) h₂

/-! ## Runs that depend on answers

A step asks for an answer that the program does not control. A run is finite when it comes to an end
whatever the answers are. -/

section driven

variable {α : Type*} {ask : α → σ → σ} {halted halted' : σ → Prop}

/-- The state after `n` steps. -/
def drive (ask : α → σ → σ) : (ℕ → α) → ℕ → σ → σ
  | _, 0, s => s
  | answers, n + 1, s => drive ask (fun k => answers (k + 1)) n (ask (answers 0) s)

/-- Every run from `s` comes to a halted state. -/
def Finishes (ask : α → σ → σ) (halted : σ → Prop) (s : σ) : Prop :=
  ∀ answers, ∃ n, halted (drive ask answers n s)

theorem Finishes.now {s : σ} (h : halted s) : Finishes ask halted s := fun _ => ⟨0, h⟩

theorem Finishes.of_step {s : σ} (h : ∀ a, Finishes ask halted (ask a s)) : Finishes ask halted s := by
  intro answers
  obtain ⟨n, hn⟩ := h (answers 0) (fun k => answers (k + 1))
  exact ⟨n + 1, hn⟩

theorem drive_add (ask : α → σ → σ) (answers : ℕ → α) (m n : ℕ) (s : σ) :
    drive ask answers (m + n) s = drive ask (fun k => answers (k + m)) n (drive ask answers m s) := by
  induction m generalizing answers s with
  | zero =>
    rw [Nat.zero_add]
    rfl
  | succ m ih =>
    rw [Nat.add_right_comm]
    exact ih (fun k => answers (k + 1)) (ask (answers 0) s)

/-- One part of a run after the other. -/
theorem Finishes.trans {s : σ} (h : Finishes ask halted s) (h' : ∀ t, halted t → Finishes ask halted' t) :
    Finishes ask halted' s := by
  intro answers
  obtain ⟨m, hm⟩ := h answers
  obtain ⟨n, hn⟩ := h' _ hm (fun k => answers (k + m))
  refine ⟨m + n, ?_⟩
  rw [drive_add]
  exact hn

/-- A property that some answer always keeps, and that no halted state has, makes a run without end. -/
theorem not_finishes {P : σ → Prop} (hstep : ∀ s, P s → ∃ a, P (ask a s)) (hhalt : ∀ s, P s → ¬halted s) {s : σ} (hs : P s) :
    ∃ answers, ∀ n, ¬halted (drive ask answers n s) := by
  classical
  obtain ⟨a₀, -⟩ := hstep s hs
  -- the answers are chosen along the states that they lead to
  let choice : σ → α := fun t => if h : P t then (hstep t h).choose else a₀
  have hchoice : ∀ t, P t → P (ask (choice t) t) := by
    intro t ht
    simp only [choice, dif_pos ht]
    exact (hstep t ht).choose_spec
  let states : ℕ → σ → σ := fun n t => (fun t => ask (choice t) t)^[n] t
  have hstates : ∀ n t, P t → P (states n t) := by
    intro n
    induction n with
    | zero => exact fun t ht => ht
    | succ n ih => exact fun t ht => ih _ (hchoice t ht)
  have hdrive : ∀ n t, drive ask (fun k => choice (states k t)) n t = states n t := by
    intro n
    induction n with
    | zero => exact fun t => rfl
    | succ n ih => exact fun t => ih (ask (choice t) t)
  refine ⟨fun k => choice (states k s), fun n => ?_⟩
  rw [hdrive]
  exact hhalt _ (hstates n s hs)

end driven

end SifarOS.ReachableStates
