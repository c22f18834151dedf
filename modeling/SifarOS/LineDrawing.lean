import SifarOS.ErrorTerm
import SifarOS.Graphics
import SifarOS.MachineInt

/-! # Lines

`gfx_line` and `ui_line`: a loop without a counter, which ends when both coordinates are those of the last
point. -/
namespace SifarOS.LineDrawing
open Graphics MachineInt

/-- The variables that the loop does not change. -/
structure Line where
  dx : Int32
  dy : Int32
  sx : Int32
  sy : Int32
  x1 : Int32
  y1 : Int32

/-- The variables that it does. -/
structure Pen where
  x0 : Int32
  y0 : Int32
  err : Int32

def start (x0 y0 x1 y1 : Int32) : Line × Pen :=
  let dx := if x1 > x0 then x1 - x0 else x0 - x1
  let dy := if y1 > y0 then y1 - y0 else y0 - y1
  let sx := if x0 < x1 then 1 else -1
  let sy := if y0 < y1 then 1 else -1
  (⟨dx, dy, sx, sy, x1, y1⟩, ⟨x0, y0, dx - dy⟩)

/-- What follows the test for the last point. -/
def step (l : Line) (pen : Pen) : Pen :=
  let e2 := 2 * pen.err
  let pen := if e2 > -l.dy then { pen with err := pen.err - l.dy, x0 := pen.x0 + l.sx } else pen
  if e2 < l.dx then { pen with err := pen.err + l.dx, y0 := pen.y0 + l.sy } else pen

/-- The points that the loop plots; no value if it takes more rounds than the fuel. -/
def loop (l : Line) : ℕ → Pen → Option (List (Int32 × Int32))
  | 0, _ => none
  | fuel + 1, pen =>
    if pen.x0 = l.x1 ∧ pen.y0 = l.y1 then some [(pen.x0, pen.y0)]
    else (loop l fuel (step l pen)).map ((pen.x0, pen.y0) :: ·)

def linePoints (fuel : ℕ) (x0 y0 x1 y1 : Int32) : Option (List (Int32 × Int32)) :=
  loop (start x0 y0 x1 y1).1 fuel (start x0 y0 x1 y1).2

/-- `gfx_line`. -/
def gfxLine (fuel : ℕ) (clip : Rect) (x0 y0 x1 y1 : Int32) (color : Color) : Option (List Store) :=
  (linePoints fuel x0 y0 x1 y1).map fun points => points.flatMap fun p => pixel clip p.1 p.2 color

/-- `ui_pixel`. -/
def uiPixel (clip : Rect) (x y : Int32) (color : Color) : List Store :=
  if x < clip.x ∨ y < clip.y ∨ x ≥ clip.x + clip.w ∨ y ≥ clip.y + clip.h then []
  else [⟨x.toInt, y.toInt, .set color⟩]

/-- `ui_line`, with `window->dirty`. -/
def uiLine (fuel : ℕ) (clip : Rect) (x0 y0 x1 y1 : Int32) (color : Color) : Option (List Store × Bool) :=
  (linePoints fuel x0 y0 x1 y1).map fun points => (points.flatMap fun p => uiPixel clip p.1 p.2 color, true)

/-- A point in the clip. -/
def Inside (clip : Rect) (p : Int32 × Int32) : Prop :=
  clip.x ≤ p.1 ∧ clip.y ≤ p.2 ∧ p.1 < clip.x + clip.w ∧ p.2 < clip.y + clip.h

/-! ## The loop -/

def Adjacent (p q : Int32 × Int32) : Prop :=
  (q.1.toInt - p.1.toInt).natAbs ≤ 1 ∧ (q.2.toInt - p.2.toInt).natAbs ≤ 1

/-- The points of a line, in order. -/
structure Drawn (x0 y0 x1 y1 : Int32) (points : List (Int32 × Int32)) : Prop where
  length : points.length = max (x1.toInt - x0.toInt).natAbs (y1.toInt - y0.toInt).natAbs + 1
  first : points.head? = some (x0, y0)
  last : points.getLast? = some (x1, y1)
  adjacent : points.IsChain Adjacent
  boxed : ∀ p ∈ points, min x0.toInt x1.toInt ≤ p.1.toInt ∧ p.1.toInt ≤ max x0.toInt x1.toInt ∧
    min y0.toInt y1.toInt ≤ p.2.toInt ∧ p.2.toInt ≤ max y0.toInt y1.toInt

section Loop
variable {l : Line}

/-- A loop in which every round brings the pen one step nearer to the end. -/
theorem loop_points {stage : ℕ → Pen → Prop}
    (hend : ∀ {pen}, stage 0 pen → pen.x0 = l.x1 ∧ pen.y0 = l.y1)
    (hstep : ∀ {n pen}, stage (n + 1) pen → ¬(pen.x0 = l.x1 ∧ pen.y0 = l.y1) ∧ stage n (step l pen) ∧
      Adjacent (pen.x0, pen.y0) ((step l pen).x0, (step l pen).y0))
    {n : ℕ} {pen : Pen} (h : stage n pen) : ∃ points : List (Int32 × Int32),
      (∀ fuel, loop l fuel pen = if n < fuel then some points else none) ∧ points.length = n + 1 ∧
      points.head? = some (pen.x0, pen.y0) ∧ points.getLast? = some (l.x1, l.y1) ∧
      points.IsChain Adjacent ∧ ∀ p ∈ points, ∃ k pen', stage k pen' ∧ p = (pen'.x0, pen'.y0) := by
  induction n generalizing pen with
  | zero =>
    have hlast := hend h
    refine ⟨[(pen.x0, pen.y0)], fun fuel => ?_, rfl, rfl, ?_, by simp, ?_⟩
    · cases fuel with
      | zero => rfl
      | succ fuel => rw [loop, if_pos hlast, if_pos (Nat.succ_pos _)]
    · rw [← hlast.1, ← hlast.2]
      rfl
    · intro p hp
      exact ⟨0, pen, h, List.mem_singleton.mp hp⟩
  | succ n ih =>
    obtain ⟨hnot, hnext, hadjacent⟩ := hstep h
    obtain ⟨points, hloop, hlength, hhead, hlast, hchain, hall⟩ := ih hnext
    refine ⟨(pen.x0, pen.y0) :: points, fun fuel => ?_, by simp [hlength], rfl, ?_, ?_, ?_⟩
    · cases fuel with
      | zero => rfl
      | succ fuel =>
        rw [loop, if_neg hnot, hloop]
        by_cases hn : n < fuel
        · rw [if_pos hn, if_pos (Nat.succ_lt_succ hn)]
          rfl
        · rw [if_neg hn, if_neg (mt Nat.lt_of_succ_lt_succ hn)]
          rfl
    · rw [List.getLast?_cons, hlast]
      rfl
    · cases points with
      | nil => cases hhead
      | cons q points =>
        obtain rfl := Option.some.inj hhead
        exact List.isChain_cons_cons.mpr ⟨hadjacent, hchain⟩
    · intro p hp
      rcases List.mem_cons.mp hp with rfl | hp
      · exact ⟨n + 1, pen, h, rfl⟩
      · exact hall p hp

/-- Extents and directions of a line with coordinates below `2 ^ 28`. -/
structure Proper (l : Line) : Prop where
  dx : 0 ≤ l.dx.toInt ∧ l.dx.toInt < 536870912
  dy : 0 ≤ l.dy.toInt ∧ l.dy.toInt < 536870912
  sx : l.sx.toInt = 1 ∨ l.sx.toInt = -1
  sy : l.sy.toInt = 1 ∨ l.sy.toInt = -1
  x1 : Within 268435455 l.x1
  y1 : Within 268435455 l.y1

/-- The pen has so many steps left on each axis. -/
structure Left (l : Line) (p q : ℤ) (pen : Pen) : Prop where
  x0 : pen.x0.toInt = l.x1.toInt - l.sx.toInt * p
  y0 : pen.y0.toInt = l.y1.toInt - l.sy.toInt * q
  p : 0 ≤ p ∧ p ≤ l.dx.toInt
  q : 0 ≤ q ∧ q ≤ l.dy.toInt

theorem double {e : Int32} (h : Within 805306368 e) : (2 * e).toInt = 2 * e.toInt := by
  have htwo : (2 : Int32).toInt = 2 := rfl
  obtain ⟨h₀, h₁⟩ := h
  rw [Int32.toInt_mul, htwo]
  exact Int.bmod_eq_of_le (by omega) (by omega)

theorem minus {d : Int32} (h : 0 ≤ d.toInt ∧ d.toInt < 536870912) : (-d).toInt = -d.toInt := by
  rw [Int32.toInt_neg]
  exact Int.bmod_eq_of_le (by omega) (by omega)

variable {pen : Pen}

/-- One round, in integers. -/
theorem step_toInt (hl : Proper l) {p q : ℤ} (hleft : Left l p q pen) (herr : Within 805306368 pen.err) :
    (step l pen).x0.toInt = pen.x0.toInt + (if -l.dy.toInt < 2 * pen.err.toInt then l.sx.toInt else 0) ∧
      (step l pen).y0.toInt = pen.y0.toInt + (if 2 * pen.err.toInt < l.dx.toInt then l.sy.toInt else 0) ∧
      (step l pen).err.toInt = pen.err.toInt - (if -l.dy.toInt < 2 * pen.err.toInt then l.dy.toInt else 0) +
        (if 2 * pen.err.toInt < l.dx.toInt then l.dx.toInt else 0) := by
  have hdouble := double herr
  have hminus := minus hl.dy
  have hx : (pen.x0 + l.sx).toInt = pen.x0.toInt + l.sx.toInt := by
    have hsum := add_cases pen.x0 l.sx
    have hx0 := hleft.x0
    have hp := hleft.p
    have hdx := hl.dx
    obtain ⟨hx₀, hx₁⟩ := hl.x1
    rcases hl.sx with hsx | hsx <;> rw [hsx] at hx0 hsum ⊢ <;> omega
  have hy : (pen.y0 + l.sy).toInt = pen.y0.toInt + l.sy.toInt := by
    have hsum := add_cases pen.y0 l.sy
    have hy0 := hleft.y0
    have hq := hleft.q
    have hdy := hl.dy
    obtain ⟨hy₀, hy₁⟩ := hl.y1
    rcases hl.sy with hsy | hsy <;> rw [hsy] at hy0 hsum ⊢ <;> omega
  obtain ⟨he₀, he₁⟩ := herr
  obtain ⟨hdx₀, hdx₁⟩ := hl.dx
  obtain ⟨hdy₀, hdy₁⟩ := hl.dy
  have hback := sub_cases pen.err l.dy
  have hforth := add_cases pen.err l.dx
  have hboth := add_cases (pen.err - l.dy) l.dx
  unfold step
  simp only [gt_iff_lt, Int32.lt_iff_toInt_lt, hdouble, hminus]
  split
  · split
    · exact ⟨hx, hy, by dsimp only; omega⟩
    · exact ⟨by dsimp only; omega, hy, by dsimp only; omega⟩
  · split
    · exact ⟨hx, by dsimp only; omega, by dsimp only; omega⟩
    · exact ⟨by omega, by omega, by omega⟩

/-- More steps along the x axis. -/
def AlongX (l : Line) (n : ℕ) (pen : Pen) : Prop :=
  ∃ q, Left l n q pen ∧ ErrorTerm l.dx.toInt l.dy.toInt n q pen.err.toInt

/-- More steps along the y axis, with the error the other way round. -/
def AlongY (l : Line) (n : ℕ) (pen : Pen) : Prop :=
  ∃ p, Left l p n pen ∧ ErrorTerm l.dy.toInt l.dx.toInt n p (-pen.err.toInt)

theorem AlongX.end (hl : Proper l) (hlong : 0 < l.dx.toInt) (h : AlongX l 0 pen) : pen.x0 = l.x1 ∧ pen.y0 = l.y1 := by
  obtain ⟨q, hleft, herr⟩ := h
  obtain rfl := herr.finish hl.dy.1 hlong
  have hx := hleft.x0
  have hy := hleft.y0
  rw [← Int32.toInt_inj, ← Int32.toInt_inj, hx, hy]
  simp

theorem AlongY.end (hl : Proper l) (hlong : 0 < l.dy.toInt) (h : AlongY l 0 pen) : pen.x0 = l.x1 ∧ pen.y0 = l.y1 := by
  obtain ⟨p, hleft, herr⟩ := h
  obtain rfl := herr.finish hl.dx.1 hlong
  have hx := hleft.x0
  have hy := hleft.y0
  rw [← Int32.toInt_inj, ← Int32.toInt_inj, hx, hy]
  simp

theorem AlongX.step (hl : Proper l) (hle : l.dy.toInt ≤ l.dx.toInt) (hlong : 0 < l.dx.toInt) {n : ℕ}
    (h : AlongX l (n + 1) pen) : ¬(pen.x0 = l.x1 ∧ pen.y0 = l.y1) ∧ AlongX l n (step l pen) ∧
      Adjacent (pen.x0, pen.y0) ((step l pen).x0, (step l pen).y0) := by
  obtain ⟨q, hleft, herr⟩ := h
  have hlow := herr.low
  have hhigh := herr.high
  have hdx := hl.dx
  have hdy := hl.dy
  obtain ⟨hx, hy, he⟩ := step_toInt hl hleft ⟨by omega, by omega⟩
  rw [if_pos (by omega)] at hx he
  obtain ⟨hx0, hy0, hp, hq⟩ := hleft
  push_cast at hx0 hp herr
  refine ⟨?_, ?_, ?_⟩
  · rintro ⟨hend, -⟩
    rw [hend] at hx0
    rcases hl.sx with hsx | hsx <;> rw [hsx] at hx0 <;> omega
  · by_cases hboth : 2 * pen.err.toInt < l.dx.toInt
    · rw [if_pos hboth] at hy he
      have hnext := herr.diagonal hle hboth
      rw [add_sub_cancel_right, ← he] at hnext
      have hnonneg := hnext.short_nonneg hdy.1 hlong (by omega)
      refine ⟨q - 1, ⟨?_, ?_, by omega, by omega⟩, hnext⟩
      · rw [hx, hx0]
        ring
      · rw [hy, hy0]
        ring
    · rw [if_neg hboth, add_zero] at hy he
      have hnext := herr.straight hdy.1 hle hboth
      rw [add_sub_cancel_right, ← he] at hnext
      refine ⟨q, ⟨?_, ?_, by omega, by omega⟩, hnext⟩
      · rw [hx, hx0]
        ring
      · rw [hy, hy0]
  · unfold Adjacent
    dsimp only
    rcases hl.sx with hsx | hsx <;> rcases hl.sy with hsy | hsy <;> rw [hsx] at hx <;> rw [hsy] at hy <;>
      split at hy <;> omega

theorem AlongY.step (hl : Proper l) (hle : l.dx.toInt ≤ l.dy.toInt) (hlong : 0 < l.dy.toInt) {n : ℕ}
    (h : AlongY l (n + 1) pen) : ¬(pen.x0 = l.x1 ∧ pen.y0 = l.y1) ∧ AlongY l n (step l pen) ∧
      Adjacent (pen.x0, pen.y0) ((step l pen).x0, (step l pen).y0) := by
  obtain ⟨p, hleft, herr⟩ := h
  have hlow := herr.low
  have hhigh := herr.high
  have hdx := hl.dx
  have hdy := hl.dy
  obtain ⟨hx, hy, he⟩ := step_toInt hl hleft ⟨by omega, by omega⟩
  rw [if_pos (show 2 * pen.err.toInt < l.dx.toInt by omega)] at hy he
  obtain ⟨hx0, hy0, hp, hq⟩ := hleft
  push_cast at hy0 hq herr
  refine ⟨?_, ?_, ?_⟩
  · rintro ⟨-, hend⟩
    rw [hend] at hy0
    rcases hl.sy with hsy | hsy <;> rw [hsy] at hy0 <;> omega
  · by_cases hboth : -l.dy.toInt < 2 * pen.err.toInt
    · rw [if_pos hboth] at hx he
      have hnext := herr.diagonal hle (by omega)
      have hsign : -pen.err.toInt - l.dx.toInt + l.dy.toInt = -(pen.err.toInt - l.dy.toInt + l.dx.toInt) := by ring
      rw [add_sub_cancel_right, hsign, ← he] at hnext
      have hnonneg := hnext.short_nonneg hdx.1 hlong (by omega)
      refine ⟨p - 1, ⟨?_, ?_, by omega, by omega⟩, hnext⟩
      · rw [hx, hx0]
        ring
      · rw [hy, hy0]
        ring
    · rw [if_neg hboth] at hx he
      have hnext := herr.straight hdx.1 hle (by omega)
      have hsign : -pen.err.toInt - l.dx.toInt = -(pen.err.toInt - 0 + l.dx.toInt) := by ring
      rw [add_sub_cancel_right, hsign, ← he] at hnext
      refine ⟨p, ⟨?_, ?_, by omega, by omega⟩, hnext⟩
      · rw [hx, hx0, add_zero]
      · rw [hy, hy0]
        ring
  · unfold Adjacent
    dsimp only
    rcases hl.sx with hsx | hsx <;> rcases hl.sy with hsy | hsy <;> rw [hsx] at hx <;> rw [hsy] at hy <;>
      split at hx <;> omega

end Loop

/-! ## A line -/

section Lines
variable {x0 y0 x1 y1 : Int32}

/-- Extent and direction along one axis. -/
theorem extent {a b : Int32} (ha : Within 268435455 a) (hb : Within 268435455 b) :
    (if b > a then b - a else a - b).toInt = (b.toInt - a.toInt).natAbs ∧
      ((if a < b then 1 else -1 : Int32).toInt = 1 ∨ (if a < b then 1 else -1 : Int32).toInt = -1) ∧
      a.toInt = b.toInt - (if a < b then 1 else -1 : Int32).toInt * (b.toInt - a.toInt).natAbs := by
  have hone : (1 : Int32).toInt = 1 := rfl
  have hminus : (-1 : Int32).toInt = -1 := rfl
  have hforth := sub_cases b a
  have hback := sub_cases a b
  obtain ⟨ha₀, ha₁⟩ := ha
  obtain ⟨hb₀, hb₁⟩ := hb
  by_cases hlt : a < b
  · rw [if_pos hlt, if_pos hlt, hone]
    rw [Int32.lt_iff_toInt_lt] at hlt
    omega
  · rw [if_neg hlt, if_neg hlt, hminus]
    rw [Int32.lt_iff_toInt_lt] at hlt
    omega

variable (hx0 : Within 268435455 x0) (hy0 : Within 268435455 y0) (hx1 : Within 268435455 x1) (hy1 : Within 268435455 y1)
include hx0 hy0 hx1 hy1

theorem start_proper : Proper (start x0 y0 x1 y1).1 ∧
    (start x0 y0 x1 y1).1.dx.toInt = (x1.toInt - x0.toInt).natAbs ∧
    (start x0 y0 x1 y1).1.dy.toInt = (y1.toInt - y0.toInt).natAbs ∧
    (start x0 y0 x1 y1).2.err.toInt = (x1.toInt - x0.toInt).natAbs - (y1.toInt - y0.toInt).natAbs ∧
    Left (start x0 y0 x1 y1).1 (x1.toInt - x0.toInt).natAbs (y1.toInt - y0.toInt).natAbs (start x0 y0 x1 y1).2 := by
  obtain ⟨hdx, hsx, hx⟩ := extent hx0 hx1
  obtain ⟨hdy, hsy, hy⟩ := extent hy0 hy1
  obtain ⟨hx0₀, hx0₁⟩ := hx0
  obtain ⟨hy0₀, hy0₁⟩ := hy0
  have hx1' := hx1
  have hy1' := hy1
  obtain ⟨hx1₀, hx1₁⟩ := hx1
  obtain ⟨hy1₀, hy1₁⟩ := hy1
  unfold start
  dsimp only
  have herr := sub_cases (if x1 > x0 then x1 - x0 else x0 - x1) (if y1 > y0 then y1 - y0 else y0 - y1)
  refine ⟨⟨?_, ?_, hsx, hsy, hx1', hy1'⟩, hdx, hdy, ?_, ⟨hx, hy, ?_, ?_⟩⟩
  · dsimp only
    omega
  · dsimp only
    omega
  · omega
  · dsimp only
    omega
  · dsimp only
    omega

omit hx0 hy0 hx1 hy1 in
/-- Between the first point and the last one. -/
theorem Left.boxed {l : Line} (hl : Proper l) {p q : ℤ} {pen first : Pen}
    (hfirst : Left l l.dx.toInt l.dy.toInt first) (h : Left l p q pen) :
    min first.x0.toInt l.x1.toInt ≤ pen.x0.toInt ∧ pen.x0.toInt ≤ max first.x0.toInt l.x1.toInt ∧
      min first.y0.toInt l.y1.toInt ≤ pen.y0.toInt ∧ pen.y0.toInt ≤ max first.y0.toInt l.y1.toInt := by
  obtain ⟨hx, hy, hp, hq⟩ := h
  obtain ⟨hx', hy', -, -⟩ := hfirst
  rcases hl.sx with hsx | hsx <;> rcases hl.sy with hsy | hsy <;> rw [hsx] at hx hx' <;> rw [hsy] at hy hy' <;> omega

theorem drawn_of_loop (stage : ℕ → Pen → Prop) {n : ℕ}
    (hend : ∀ {pen}, stage 0 pen → pen.x0 = x1 ∧ pen.y0 = y1)
    (hstep : ∀ {n pen}, stage (n + 1) pen → ¬(pen.x0 = x1 ∧ pen.y0 = y1) ∧
      stage n (step (start x0 y0 x1 y1).1 pen) ∧
      Adjacent (pen.x0, pen.y0) ((step (start x0 y0 x1 y1).1 pen).x0, (step (start x0 y0 x1 y1).1 pen).y0))
    (hleft : ∀ {n pen}, stage n pen → ∃ p q, Left (start x0 y0 x1 y1).1 p q pen)
    (hn : n = max (x1.toInt - x0.toInt).natAbs (y1.toInt - y0.toInt).natAbs) (h : stage n (start x0 y0 x1 y1).2) :
    ∃ points, Drawn x0 y0 x1 y1 points ∧
      ∀ fuel, linePoints fuel x0 y0 x1 y1 = if points.length ≤ fuel then some points else none := by
  obtain ⟨hproper, hdx, hdy, -, hfirst⟩ := start_proper hx0 hy0 hx1 hy1
  obtain ⟨points, hloop, hlength, hhead, hlast, hchain, hall⟩ :=
    loop_points (l := (start x0 y0 x1 y1).1) hend hstep h
  rw [← hdx, ← hdy] at hfirst
  refine ⟨points, ⟨by omega, hhead, hlast, hchain, fun p hp => ?_⟩, fun fuel => ?_⟩
  · obtain ⟨k, pen, hpen, rfl⟩ := hall p hp
    obtain ⟨p, q, hpq⟩ := hleft hpen
    exact hfirst.boxed hproper hpq
  · rw [linePoints, hloop, hlength]
    rfl

/-- The loop ends, and plots the points of the line. -/
theorem line_points : ∃ points, Drawn x0 y0 x1 y1 points ∧
    ∀ fuel, linePoints fuel x0 y0 x1 y1 = if points.length ≤ fuel then some points else none := by
  obtain ⟨hproper, hdx, hdy, herr, hfirst⟩ := start_proper hx0 hy0 hx1 hy1
  rcases Nat.eq_zero_or_pos (max (x1.toInt - x0.toInt).natAbs (y1.toInt - y0.toInt).natAbs) with hzero | hpos
  · refine drawn_of_loop hx0 hy0 hx1 hy1 (fun n pen => n = 0 ∧ pen = (start x0 y0 x1 y1).2) ?_ ?_ ?_
      hzero.symm ⟨rfl, rfl⟩
    · rintro pen ⟨-, rfl⟩
      have hx : x0.toInt = x1.toInt := by omega
      have hy : y0.toInt = y1.toInt := by omega
      exact ⟨Int32.toInt_inj.mp hx, Int32.toInt_inj.mp hy⟩
    · rintro n pen ⟨hn, -⟩
      cases hn
    · rintro n pen ⟨-, rfl⟩
      exact ⟨_, _, hfirst⟩
  · rcases Nat.le_total (y1.toInt - y0.toInt).natAbs (x1.toInt - x0.toInt).natAbs with hle | hle
    · rw [Nat.max_eq_left hle] at hpos
      have hle' : (start x0 y0 x1 y1).1.dy.toInt ≤ (start x0 y0 x1 y1).1.dx.toInt := by omega
      have hlong : 0 < (start x0 y0 x1 y1).1.dx.toInt := by omega
      refine drawn_of_loop hx0 hy0 hx1 hy1 (AlongX (start x0 y0 x1 y1).1) (fun h => h.end hproper hlong)
        (fun h => h.step hproper hle' hlong) (fun ⟨q, h, _⟩ => ⟨_, q, h⟩) (Nat.max_eq_left hle).symm ⟨_, hfirst, ?_⟩
      rw [herr, ← hdx, ← hdy]
      exact ErrorTerm.start hle' hlong
    · rw [Nat.max_eq_right hle] at hpos
      have hle' : (start x0 y0 x1 y1).1.dx.toInt ≤ (start x0 y0 x1 y1).1.dy.toInt := by omega
      have hlong : 0 < (start x0 y0 x1 y1).1.dy.toInt := by omega
      refine drawn_of_loop hx0 hy0 hx1 hy1 (AlongY (start x0 y0 x1 y1).1) (fun h => h.end hproper hlong)
        (fun h => h.step hproper hle' hlong) (fun ⟨p, h, _⟩ => ⟨p, _, h⟩) (Nat.max_eq_right hle).symm ⟨_, hfirst, ?_⟩
      rw [herr, neg_sub, ← hdx, ← hdy]
      exact ErrorTerm.start hle' hlong

omit hx0 hy0 hx1 hy1 in
theorem pixel_inside {clip : Rect} {p : Int32 × Int32} (h : Inside clip p) (color : Color) :
    pixel clip p.1 p.2 color = [⟨p.1.toInt, p.2.toInt, .set color⟩] ∧
      uiPixel clip p.1 p.2 color = [⟨p.1.toInt, p.2.toInt, .set color⟩] := by
  obtain ⟨hleft, htop, hright, hbottom⟩ := h
  have hnot : ¬(p.1 < clip.x ∨ p.2 < clip.y ∨ p.1 ≥ clip.x + clip.w ∨ p.2 ≥ clip.y + clip.h) := by
    simp only [ge_iff_le, not_or, Int32.not_lt, Int32.not_le]
    exact ⟨hleft, htop, hright, hbottom⟩
  exact ⟨if_neg hnot, if_neg hnot⟩

/-- `gfx_line` and `ui_line` end, after as many points as the line has, and colour each of them that is inside
the clip. -/
theorem lines_end (clip : Rect) (color : Color) : ∃ points, Drawn x0 y0 x1 y1 points ∧
    (∀ fuel, gfxLine fuel clip x0 y0 x1 y1 color =
      if points.length ≤ fuel then some (points.flatMap fun p => pixel clip p.1 p.2 color) else none) ∧
    (∀ fuel, uiLine fuel clip x0 y0 x1 y1 color =
      if points.length ≤ fuel then some (points.flatMap fun p => uiPixel clip p.1 p.2 color, true) else none) ∧
    ∀ p ∈ points, Inside clip p → pixel clip p.1 p.2 color = [⟨p.1.toInt, p.2.toInt, .set color⟩] ∧
      uiPixel clip p.1 p.2 color = [⟨p.1.toInt, p.2.toInt, .set color⟩] := by
  obtain ⟨points, hdrawn, hpoints⟩ := line_points hx0 hy0 hx1 hy1
  refine ⟨points, hdrawn, fun fuel => ?_, fun fuel => ?_, fun p _ hp => pixel_inside hp color⟩
  · rw [gfxLine, hpoints, apply_ite (Option.map _)]
    rfl
  · rw [uiLine, hpoints, apply_ite (Option.map _)]
    rfl

end Lines

/-- From the origin five columns to the right and two rows up. -/
theorem lines_end_short : ∃ points, Drawn 0 0 5 (-2) points ∧
    (∀ fuel, gfxLine fuel ⟨0, 0, 9, 9⟩ 0 0 5 (-2) 7 =
      if points.length ≤ fuel then some (points.flatMap fun p => pixel ⟨0, 0, 9, 9⟩ p.1 p.2 7) else none) ∧
    (∀ fuel, uiLine fuel ⟨0, 0, 9, 9⟩ 0 0 5 (-2) 7 =
      if points.length ≤ fuel then some (points.flatMap fun p => uiPixel ⟨0, 0, 9, 9⟩ p.1 p.2 7, true) else none) ∧
    ∀ p ∈ points, Inside ⟨0, 0, 9, 9⟩ p → pixel ⟨0, 0, 9, 9⟩ p.1 p.2 7 = [⟨p.1.toInt, p.2.toInt, .set 7⟩] ∧
      uiPixel ⟨0, 0, 9, 9⟩ p.1 p.2 7 = [⟨p.1.toInt, p.2.toInt, .set 7⟩] :=
  lines_end ⟨by decide, by decide⟩ ⟨by decide, by decide⟩ ⟨by decide, by decide⟩ ⟨by decide, by decide⟩ ⟨0, 0, 9, 9⟩ 7

end SifarOS.LineDrawing
