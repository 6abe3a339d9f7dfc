import Mathlib.Algebra.Field.Basic
import Tklb.Foundation.InPlace

/-!
# Ooura's transform

The transform inside `FFTOoura`.  An array holds complex numbers, the real part of number `i`
at `2 * i` and the imaginary part behind it.  `bitrv2` puts the numbers into bit-reversed
order; `cftfsub` and `cftbsub` combine them, four at a time, in passes over blocks that grow
by four (`cft1st`, `cftmdl`); `rftfsub` and `rftbsub` go from the spectrum of the complex
numbers to the one of the real numbers they are made of, and back.  `makewt` and `makect`
compute the tables for this.

The numbers are those of a field and `cos`, `sin` and `atan` are parameters, so the model
computes wherever they do.  The parts that differ from pass to pass only in the distance `l`
of the four numbers they combine have `l` as a parameter; in `cft1st` it is `2`.  `int`s are
natural numbers.  A pointer into the middle of a table is the table from there on (`behind`).

### How the model is laid out

* The four kinds of blocks in a pass are functions of their own (`combine`, `combineEighth`,
  `combineEven`, `combineOdd`).  The source writes them out in `cft1st` and once more in
  `cftmdl`, with the distance `2` put in; here they are written once, and `cft1st` is written
  with them.
* A real and an imaginary part that are stored are one `store`.  The loads come first, as they do in
  the source, so a block reads its cells before it writes any.
* `rdft` is what the class calls, and `tables` is what its constructor leaves.

### What is load-bearing

Nothing in this file is about transforms.  It is executable as soon as the numbers and the three
functions are, and what it computes is shown elsewhere: that the numbers are reordered in
`Ooura.BitReversal`, combined in `Ooura.Butterflies` and `Ooura.Complex`, and separated into the
bins of real numbers in `Ooura.RealTransform`.
-/

namespace Tklb

open Foundation

/-- The functions that the tables are computed with.  They are given with the numbers, so the same
code is that of exact numbers and of machine numbers. -/
structure Trigonometry (α : Type) where
  cos : α → α
  sin : α → α
  atan : α → α

namespace Ooura

variable {α : Type}

/-- What `p + k` points to. -/
def behind {β : Type} (k : ℕ) (p : ℕ → β) : ℕ → β := fun i => p (k + i)

/-- What `p` points to when `p + k` points to `q`. -/
def replaceBehind {β : Type} (k : ℕ) (p q : ℕ → β) : ℕ → β :=
  fun i => if k ≤ i then q (i - k) else p i

/-- `a[j] = re; a[j + 1] = im;` -/
def store (j : ℕ) (re im : α) (a : ℕ → α) : ℕ → α :=
  Function.update (Function.update a j re) (j + 1) im

/-! ### `bitrv2` -/

/-- `xr = a[j1]; …; a[k1 + 1] = xi;` -/
def swap (j1 k1 : ℕ) (a : ℕ → α) : ℕ → α :=
  store k1 (a j1) (a (j1 + 1)) (store j1 (a k1) (a (k1 + 1)) a)

/-- The loop that computes the table of `bitrv2`: `m`, `l` and `ip` afterwards. -/
def indexTable (m l : ℕ) (ip : ℕ → ℕ) : ℕ × ℕ × (ℕ → ℕ) :=
  if m <<< 3 < l then
    let l' := l >>> 1
    indexTable (m <<< 1) l'
      (countUp m (fun j ip => Function.update ip (m + j) (ip j + l')) ip)
  else (m, l, ip)
termination_by l
decreasing_by
  rw [Nat.shiftRight_eq_div_pow]
  omega

/-- The four exchanges for `j` and `k` where `(m << 3) == l`. -/
def swapFour (m2 : ℕ) (ip : ℕ → ℕ) (k j : ℕ) (a : ℕ → α) : ℕ → α :=
  let j1 := 2 * j + ip k
  let k1 := 2 * k + ip j
  let a := swap j1 k1 a
  let j1 := j1 + m2
  let k1 := k1 + 2 * m2
  let a := swap j1 k1 a
  let j1 := j1 + m2
  let k1 := k1 - m2
  let a := swap j1 k1 a
  let j1 := j1 + m2
  let k1 := k1 + 2 * m2
  swap j1 k1 a

/-- The two exchanges for `j` and `k` where it is not. -/
def swapTwo (m2 : ℕ) (ip : ℕ → ℕ) (k j : ℕ) (a : ℕ → α) : ℕ → α :=
  let j1 := 2 * j + ip k
  let k1 := 2 * k + ip j
  let a := swap j1 k1 a
  let j1 := j1 + m2
  let k1 := k1 + m2
  swap j1 k1 a

/-- `bitrv2(n, ip, a)`: `ip` and `a` afterwards. -/
def bitrv2 (n : ℕ) (ip : ℕ → ℕ) (a : ℕ → α) : (ℕ → ℕ) × (ℕ → α) :=
  let t := indexTable 1 n (Function.update ip 0 0)
  let m := t.1
  let l := t.2.1
  let ip := t.2.2
  let m2 := 2 * m
  if m <<< 3 = l then
    (ip, countUp m (fun k a =>
      let a := countUp k (swapFour m2 ip k) a
      let j1 := 2 * k + m2 + ip k
      let k1 := j1 + m2
      swap j1 k1 a) a)
  else (ip, countBy 1 m 1 (fun k a => countUp k (swapTwo m2 ip k) a) a)

/-! ### Combining four numbers -/

/-- `x0r`, …, `x3i` -/
structure Butterfly (α : Type) where
  x0r : α
  x0i : α
  x1r : α
  x1i : α
  x2r : α
  x2i : α
  x3r : α
  x3i : α

section Combining

variable [CommRing α] (l : ℕ)

/-- The sums and differences of the numbers at `j`, `j1 = j + l`, `j2 = j1 + l` and
`j3 = j2 + l`. -/
def butterfly (j : ℕ) (a : ℕ → α) : Butterfly α :=
  let j1 := j + l
  let j2 := j1 + l
  let j3 := j2 + l
  { x0r := a j + a j1
    x0i := a (j + 1) + a (j1 + 1)
    x1r := a j - a j1
    x1i := a (j + 1) - a (j1 + 1)
    x2r := a j2 + a j3
    x2i := a (j2 + 1) + a (j3 + 1)
    x3r := a j2 - a j3
    x3i := a (j2 + 1) - a (j3 + 1) }

/-- In the first block of a pass, and at the end of `cftfsub`. -/
def combine (j : ℕ) (a : ℕ → α) : ℕ → α :=
  let j1 := j + l
  let j2 := j1 + l
  let j3 := j2 + l
  let x := butterfly l j a
  let a := store j (x.x0r + x.x2r) (x.x0i + x.x2i) a
  let a := store j2 (x.x0r - x.x2r) (x.x0i - x.x2i) a
  let a := store j1 (x.x1r - x.x3i) (x.x1i + x.x3r) a
  store j3 (x.x1r + x.x3i) (x.x1i - x.x3r) a

/-- In the second block of a pass. -/
def combineEighth (wk1r : α) (j : ℕ) (a : ℕ → α) : ℕ → α :=
  let j1 := j + l
  let j2 := j1 + l
  let j3 := j2 + l
  let x := butterfly l j a
  let a := store j (x.x0r + x.x2r) (x.x0i + x.x2i) a
  let a := store j2 (x.x2i - x.x0i) (x.x0r - x.x2r) a
  let x0r := x.x1r - x.x3i
  let x0i := x.x1i + x.x3r
  let a := store j1 (wk1r * (x0r - x0i)) (wk1r * (x0r + x0i)) a
  let x0r := x.x3i + x.x1r
  let x0i := x.x3r - x.x1i
  store j3 (wk1r * (x0i - x0r)) (wk1r * (x0i + x0r)) a

/-- In the first block of a later pair. -/
def combineEven (wk1r wk1i wk2r wk2i wk3r wk3i : α) (j : ℕ) (a : ℕ → α) : ℕ → α :=
  let j1 := j + l
  let j2 := j1 + l
  let j3 := j2 + l
  let x := butterfly l j a
  let a := store j (x.x0r + x.x2r) (x.x0i + x.x2i) a
  let x0r := x.x0r - x.x2r
  let x0i := x.x0i - x.x2i
  let a := store j2 (wk2r * x0r - wk2i * x0i) (wk2r * x0i + wk2i * x0r) a
  let x0r := x.x1r - x.x3i
  let x0i := x.x1i + x.x3r
  let a := store j1 (wk1r * x0r - wk1i * x0i) (wk1r * x0i + wk1i * x0r) a
  let x0r := x.x1r + x.x3i
  let x0i := x.x1i - x.x3r
  store j3 (wk3r * x0r - wk3i * x0i) (wk3r * x0i + wk3i * x0r) a

/-- In the second block of a later pair; `wk2r` and `wk2i` are those of the first. -/
def combineOdd (wk1r wk1i wk2r wk2i wk3r wk3i : α) (j : ℕ) (a : ℕ → α) : ℕ → α :=
  let j1 := j + l
  let j2 := j1 + l
  let j3 := j2 + l
  let x := butterfly l j a
  let a := store j (x.x0r + x.x2r) (x.x0i + x.x2i) a
  let x0r := x.x0r - x.x2r
  let x0i := x.x0i - x.x2i
  let a := store j2 (-wk2i * x0r - wk2r * x0i) (-wk2i * x0i + wk2r * x0r) a
  let x0r := x.x1r - x.x3i
  let x0i := x.x1i + x.x3r
  let a := store j1 (wk1r * x0r - wk1i * x0i) (wk1r * x0i + wk1i * x0r) a
  let x0r := x.x1r + x.x3i
  let x0i := x.x1i - x.x3r
  store j3 (wk3r * x0r - wk3i * x0i) (wk3r * x0i + wk3i * x0r) a

/-- At the end of `cftbsub`. -/
def combineBack (j : ℕ) (a : ℕ → α) : ℕ → α :=
  let j1 := j + l
  let j2 := j1 + l
  let j3 := j2 + l
  let x := butterfly l j a
  let x0i := -a (j + 1) - a (j1 + 1)
  let x1i := -a (j + 1) + a (j1 + 1)
  let a := store j (x.x0r + x.x2r) (x0i - x.x2i) a
  let a := store j2 (x.x0r - x.x2r) (x0i + x.x2i) a
  let a := store j1 (x.x1r - x.x3i) (x1i - x.x3r) a
  store j3 (x.x1r + x.x3i) (x1i + x.x3r) a

/-- Two numbers, at the end of `cftfsub`. -/
def combineTwo (j : ℕ) (a : ℕ → α) : ℕ → α :=
  let j1 := j + l
  let x0r := a j - a j1
  let x0i := a (j + 1) - a (j1 + 1)
  let a := store j (a j + a j1) (a (j + 1) + a (j1 + 1)) a
  store j1 x0r x0i a

/-- Two numbers, at the end of `cftbsub`. -/
def combineTwoBack (j : ℕ) (a : ℕ → α) : ℕ → α :=
  let j1 := j + l
  let x0r := a j - a j1
  let x0i := -a (j + 1) + a (j1 + 1)
  let a := store j (a j + a j1) (-a (j + 1) - a (j1 + 1)) a
  store j1 x0r x0i a

end Combining

/-! ### The complex transform -/

section Complex

variable [CommRing α] (n : ℕ)

/-- The two blocks of one iteration of the last loop of `cftmdl`, which start at `k` and
`k + m`. -/
def combinePair (l : ℕ) (w : ℕ → α) (k1 k m : ℕ) (a : ℕ → α) : ℕ → α :=
  let k2 := 2 * k1
  let wk2r := w k1
  let wk2i := w (k1 + 1)
  let wk1r := w k2
  let wk1i := w (k2 + 1)
  let wk3r := wk1r - (2 : ℕ) * wk2i * wk1i
  let wk3i := (2 : ℕ) * wk2i * wk1r - wk1i
  let a := countBy k (l + k) 2 (combineEven l wk1r wk1i wk2r wk2i wk3r wk3i) a
  let wk1r := w (k2 + 2)
  let wk1i := w (k2 + 3)
  let wk3r := wk1r - (2 : ℕ) * wk2r * wk1i
  let wk3i := (2 : ℕ) * wk2r * wk1r - wk1i
  countBy (k + m) (l + (k + m)) 2 (combineOdd l wk1r wk1i wk2r wk2i wk3r wk3i) a

/-- `cftmdl(n, l, a, w)` -/
def cftmdl (l : ℕ) (a w : ℕ → α) : ℕ → α :=
  let m := l <<< 2
  let a := countBy 0 l 2 (combine l) a
  let wk1r := w 2
  let a := countBy m (l + m) 2 (combineEighth l wk1r) a
  let m2 := 2 * m
  (countBy m2 n m2 (fun k (s : ℕ × (ℕ → α)) =>
    let k1 := s.1 + 2
    (k1, combinePair l w k1 k m s.2)) (0, a)).2

/-- One iteration of the loop of `cft1st`, for the two blocks that start at `j` and `j + 8`. -/
def firstPair (w : ℕ → α) (k1 j : ℕ) (a : ℕ → α) : ℕ → α :=
  let k2 := 2 * k1
  let wk2r := w k1
  let wk2i := w (k1 + 1)
  let wk1r := w k2
  let wk1i := w (k2 + 1)
  let wk3r := wk1r - (2 : ℕ) * wk2i * wk1i
  let wk3i := (2 : ℕ) * wk2i * wk1r - wk1i
  let a := combineEven 2 wk1r wk1i wk2r wk2i wk3r wk3i j a
  let wk1r := w (k2 + 2)
  let wk1i := w (k2 + 3)
  let wk3r := wk1r - (2 : ℕ) * wk2r * wk1i
  let wk3i := (2 : ℕ) * wk2r * wk1r - wk1i
  combineOdd 2 wk1r wk1i wk2r wk2i wk3r wk3i (j + 8) a

/-- `cft1st(n, a, w)` -/
def cft1st (a w : ℕ → α) : ℕ → α :=
  let a := combine 2 0 a
  let wk1r := w 2
  let a := combineEighth 2 wk1r 8 a
  (countBy 16 n 16 (fun j (s : ℕ × (ℕ → α)) =>
    let k1 := s.1 + 2
    (k1, firstPair w k1 j s.2)) (0, a)).2

/-- `while ((l << 2) < n) { cftmdl(n, l, a, w); l <<= 2; }`: `l` and `a` afterwards. -/
def middlePasses (w : ℕ → α) (l : ℕ) (hl : 0 < l) (a : ℕ → α) : ℕ × (ℕ → α) :=
  if l <<< 2 < n then
    middlePasses w (l <<< 2) (by rw [Nat.shiftLeft_eq]; omega) (cftmdl n l a w)
  else (l, a)
termination_by n - l
decreasing_by
  rw [Nat.shiftLeft_eq] at *
  omega

/-- What `cftfsub` and `cftbsub` have in common: `l` and `a` before their last loop. -/
def passes (a w : ℕ → α) : ℕ × (ℕ → α) :=
  if 8 < n then middlePasses n w 8 (by decide) (cft1st n a w) else (2, a)

/-- `cftfsub(n, a, w)` -/
def cftfsub (a w : ℕ → α) : ℕ → α :=
  let s := passes n a w
  let l := s.1
  let a := s.2
  if l <<< 2 = n then countBy 0 l 2 (combine l) a else countBy 0 l 2 (combineTwo l) a

/-- `cftbsub(n, a, w)` -/
def cftbsub (a w : ℕ → α) : ℕ → α :=
  let s := passes n a w
  let l := s.1
  let a := s.2
  if l <<< 2 = n then countBy 0 l 2 (combineBack l) a else countBy 0 l 2 (combineTwoBack l) a

end Complex

/-! ### The real transform -/

section Real

variable [Field α] (n : ℕ)

/-- One iteration of the loop of `rftfsub`. -/
def splitBins (nc kk : ℕ) (c : ℕ → α) (j : ℕ) (a : ℕ → α) : ℕ → α :=
  let k := n - j
  let wkr := 1 / (2 : ℕ) - c (nc - kk)
  let wki := c kk
  let xr := a j - a k
  let xi := a (j + 1) + a (k + 1)
  let yr := wkr * xr - wki * xi
  let yi := wkr * xi + wki * xr
  let a := Function.update a j (a j - yr)
  let a := Function.update a (j + 1) (a (j + 1) - yi)
  let a := Function.update a k (a k + yr)
  Function.update a (k + 1) (a (k + 1) - yi)

/-- One iteration of the loop of `rftbsub`. -/
def mergeBins (nc kk : ℕ) (c : ℕ → α) (j : ℕ) (a : ℕ → α) : ℕ → α :=
  let k := n - j
  let wkr := 1 / (2 : ℕ) - c (nc - kk)
  let wki := c kk
  let xr := a j - a k
  let xi := a (j + 1) + a (k + 1)
  let yr := wkr * xr + wki * xi
  let yi := wkr * xi - wki * xr
  let a := Function.update a j (a j - yr)
  let a := Function.update a (j + 1) (yi - a (j + 1))
  let a := Function.update a k (a k + yr)
  Function.update a (k + 1) (yi - a (k + 1))

/-- `rftfsub(n, a, nc, c)` -/
def rftfsub (a : ℕ → α) (nc : ℕ) (c : ℕ → α) : ℕ → α :=
  let m := n >>> 1
  let ks := 2 * nc / m
  (countBy 2 m 2 (fun j (s : ℕ × (ℕ → α)) =>
    let kk := s.1 + ks
    (kk, splitBins n nc kk c j s.2)) (0, a)).2

/-- `rftbsub(n, a, nc, c)` -/
def rftbsub (a : ℕ → α) (nc : ℕ) (c : ℕ → α) : ℕ → α :=
  let a := Function.update a 1 (-a 1)
  let m := n >>> 1
  let ks := 2 * nc / m
  let a := (countBy 2 m 2 (fun j (s : ℕ × (ℕ → α)) =>
    let kk := s.1 + ks
    (kk, mergeBins n nc kk c j s.2)) (0, a)).2
  Function.update a (m + 1) (-a (m + 1))

/-- `rdft(n, isgn, a, ip, w)`: `ip` and `a` afterwards. -/
def rdft (isgn : ℤ) (a : ℕ → α) (ip : ℕ → ℕ) (w : ℕ → α) : (ℕ → ℕ) × (ℕ → α) :=
  let nw := ip 0
  let nc := ip 1
  if 0 ≤ isgn then
    let s :=
      if 4 < n then
        let r := bitrv2 n (behind 2 ip) a
        let a := cftfsub n r.2 w
        (replaceBehind 2 ip r.1, rftfsub n a nc (behind nw w))
      else if n = 4 then (ip, cftfsub n a w)
      else (ip, a)
    let a := s.2
    let xi := a 0 - a 1
    let a := Function.update a 0 (a 0 + a 1)
    (s.1, Function.update a 1 xi)
  else
    let a := Function.update a 1 (1 / (2 : ℕ) * (a 0 - a 1))
    let a := Function.update a 0 (a 0 - a 1)
    if 4 < n then
      let a := rftbsub n a nc (behind nw w)
      let r := bitrv2 n (behind 2 ip) a
      (replaceBehind 2 ip r.1, cftbsub n r.2 w)
    else if n = 4 then (ip, cftfsub n a w)
    else (ip, a)

end Real

/-! ### The tables -/

section Tables

variable [Field α] (trig : Trigonometry α)

/-- `makewt(nw, ip, w)`: `ip` and `w` afterwards. -/
def makewt (nw : ℕ) (ip : ℕ → ℕ) (w : ℕ → α) : (ℕ → ℕ) × (ℕ → α) :=
  let ip := Function.update (Function.update ip 0 nw) 1 1
  if 2 < nw then
    let nwh := nw >>> 1
    let delta := trig.atan 1 / nwh
    let w := Function.update w 0 1
    let w := Function.update w 1 0
    let w := Function.update w nwh (trig.cos (delta * nwh))
    let w := Function.update w (nwh + 1) (w nwh)
    if 2 < nwh then
      let w := countBy 2 nwh 2 (fun j w =>
        let x := trig.cos (delta * j)
        let y := trig.sin (delta * j)
        store (nw - j) y x (store j x y w)) w
      let r := bitrv2 nw (behind 2 ip) w
      (replaceBehind 2 ip r.1, r.2)
    else (ip, w)
  else (ip, w)

/-- `makect(nc, ip, c)`: `ip` and `c` afterwards. -/
def makect (nc : ℕ) (ip : ℕ → ℕ) (c : ℕ → α) : (ℕ → ℕ) × (ℕ → α) :=
  let ip := Function.update ip 1 nc
  if 1 < nc then
    let nch := nc >>> 1
    let delta := trig.atan 1 / nch
    let c := Function.update c 0 (trig.cos (delta * nch))
    let c := Function.update c nch (1 / (2 : ℕ) * c 0)
    (ip, countBy 1 nch 1 (fun j c =>
      Function.update (Function.update c j (1 / (2 : ℕ) * trig.cos (delta * j))) (nc - j)
        (1 / (2 : ℕ) * trig.sin (delta * j))) c)
  else (ip, c)

/-- What the constructor puts into `mIp` and `mW`. -/
def tables (size : ℕ) (ip : ℕ → ℕ) (w : ℕ → α) : (ℕ → ℕ) × (ℕ → α) :=
  let size4 := size / 4
  let r := makewt trig size4 ip w
  let s := makect trig size4 r.1 (behind size4 r.2)
  (s.1, replaceBehind size4 r.2 s.2)

end Tables

end Ooura

end Tklb
