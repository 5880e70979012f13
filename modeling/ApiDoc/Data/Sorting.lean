import ApiDoc.Data.Basic

namespace ApiDoc

/-!
# Sorting by keys

* `Data.before` — whether a value comes before another; values of unlike types have no order;
* `sortByKey` — a stable sort that fails at the first pair without an order.

Which pair is compared first shows in a failure. Items are cut into runs that rise or fall;
short runs are filled up one item after the other, and runs are merged by the depth at which
the border between them halves the list.
-/

/-- Why two values have no order. -/
inductive Unordered where
  | types (left right : String)
  | clocks
  | offsets
deriving DecidableEq, Repr

/-- Texts and lists of numbers by their first difference. -/
def Scalar.octetsBefore : List Nat → List Nat → Bool
  | _, [] => false
  | [], _ :: _ => true
  | a :: as, b :: bs => a < b || (a == b && octetsBefore as bs)

/-- Why two moments have no order. -/
def Unordered.ofMoments : Moment.Unlike → Unordered
  | .clock => .clocks
  | .offset => .offsets

/-- Whether a scalar comes before another: numbers by value, texts by code point, moments by
    time. -/
def Scalar.before (s t : Scalar) : Except Unordered Bool :=
  match s, t with
  | .str a, .str b => .ok (a < b)
  | .bytes a, .bytes b => .ok (octetsBefore a b)
  | .moment m _, .moment n _ => (m.before? n).mapError Unordered.ofMoments
  | .float x, .float y => .ok (x.lt y)
  | s, t => match s, s.integer?, t, t.integer? with
    | _, some m, _, some n => .ok (m < n)
    | .float x, _, _, some n =>
      .ok (if x.isFinite then x.units < n * Binary64.unitsPerOne else !x.isNaN && x.negative)
    | _, some m, .float y, _ =>
      .ok (if y.isFinite then m * Binary64.unitsPerOne < y.units else !y.isNaN && !y.negative)
    | _, _, _, _ => .error (.types s.ownerName t.ownerName)

mutual

/-- Whether a value comes before another: scalars in their order, tuples by their first
    difference. -/
def Data.before : Data → Data → Except Unordered Bool
  | .scalar s, .scalar t => s.before t
  | .tuple xs _, .tuple ys _ => itemsBefore xs ys
  | v, w => .error (.types v.ownerName w.ownerName)

/-- Whether items come before others. -/
def itemsBefore : List Data → List Data → Except Unordered Bool
  | [], ys => .ok !ys.isEmpty
  | _ :: _, [] => .ok false
  | x :: xs, y :: ys => if x.same y then itemsBefore xs ys else x.before y

end

variable {α : Type}

/-! ### Runs -/

/-- How many items after the one with the key `prev` belong to its run, which rises, or falls
    where `down` holds. -/
def runLength (down : Bool) (prev : Data) : List (Data × α) → Except Unordered Nat
  | [] => .ok 0
  | (k, _) :: rest => do
    if (← k.before prev) == down then return (← runLength down k rest) + 1
    else return 0

/-- The position at which a key goes into the sorted items from `low` to `high`: after all
    that are not above it. Halves the interval at each step. -/
def searchPosition (items : List (Data × α)) (k : Data) (low high : Nat) :
    Except Unordered Nat :=
  if low < high then
    let middle := low + (high - low) / 2
    match items[middle]? with
    | none => .ok low
    | some (k', _) => do
      if ← k.before k' then searchPosition items k low middle
      else searchPosition items k (middle + 1) high
  else .ok low
termination_by high - low

/-- Sorted items with further ones put in one after the other. -/
def insertAll (sorted : List (Data × α)) : List (Data × α) → Except Unordered (List (Data × α))
  | [] => .ok sorted
  | x :: rest => do
    let i ← searchPosition sorted x.1 0 sorted.length
    insertAll (sorted.insertIdx i x) rest

/-- The run at the front, filled up to `least` items and turned around if it falls, and what
    follows. -/
def takeRun (least : Nat) : List (Data × α) →
    Except Unordered (List (Data × α) × List (Data × α))
  | [] => .ok ([], [])
  | [x] => .ok ([x], [])
  | x :: y :: rest => do
    let down ← y.1.before x.1
    let n ← runLength down y.1 rest
    let run := x :: y :: rest.take n
    let rest := rest.drop n
    let more := least - run.length
    return (← insertAll (if down then run.reverse else run) (rest.take more), rest.drop more)

/-- The least length of a run in a list of `n` items: the leading six bits of `n`, one more if
    a lower bit is set. -/
def leastRun (n : Nat) (bit : Nat) : Nat :=
  if n < 64 then n + bit else leastRun (n / 2) (if n % 2 == 1 then 1 else bit)

/-! ### Merging -/

/-- A sorted run, where it starts, and the depth of the border after it. -/
structure Run (α : Type) where
  start : Nat
  items : List (Data × α)
  depth : Nat

/-- Two sorted lists as one; of equal keys that of the first comes first. -/
def mergeItems : List (Data × α) → List (Data × α) → Except Unordered (List (Data × α))
  | [], bs => .ok bs
  | as, [] => .ok as
  | a :: as, b :: bs => do
    if ← b.1.before a.1 then return b :: (← mergeItems (a :: as) bs)
    else return a :: (← mergeItems as (b :: bs))
termination_by as bs => as.length + bs.length

/-- Two neighbouring runs as one. -/
def Run.merge (r s : Run α) : Except Unordered (Run α) := do
  return { r with items := ← mergeItems r.items s.items }

/-- The number of halvings after which `[0, 1)` separates `a / n` from `b / n`. -/
def borderDepth (n : Nat) : (fuel : Nat) → (a b : Nat) → Nat
  | 0, _, _ => 0
  | fuel + 1, a, b =>
    if n ≤ a then borderDepth n fuel (2 * (a - n)) (2 * (b - n)) + 1
    else if n ≤ b then 1
    else borderDepth n fuel (2 * a) (2 * b) + 1

/-- The runs, last first, with those merged whose border lies deeper than `depth`. -/
def mergeAbove (depth : Nat) : List (Run α) → Except Unordered (List (Run α))
  | s :: r :: rest => do
    if depth < r.depth then mergeAbove depth ((← r.merge s) :: rest)
    else return s :: r :: rest
  | rs => .ok rs
termination_by rs => rs.length

/-- All items of runs, the last of which comes first. -/
def mergeRuns : List (Run α) → Except Unordered (List (Data × α))
  | s :: r :: q :: rest => do
    if q.items.length < s.items.length then mergeRuns (s :: (← q.merge r) :: rest)
    else mergeRuns ((← r.merge s) :: q :: rest)
  | [s, r] => return (← r.merge s).items
  | [s] => .ok s.items
  | [] => .ok []
termination_by rs => rs.length

/-- The runs with one more: the border before it gets its depth, and deeper ones go. -/
def pushRun (n : Nat) (items : List (Data × α)) : List (Run α) → Except Unordered (List (Run α))
  | [] => .ok [⟨0, items, 0⟩]
  | r :: rest => do
    let a := 2 * r.start + r.items.length
    let b := a + r.items.length + items.length
    let depth := borderDepth n 64 a b
    match ← mergeAbove depth (r :: rest) with
    | [] => return [⟨0, items, 0⟩]
    | r :: rest => return ⟨r.start + r.items.length, items, 0⟩ :: { r with depth } :: rest

/-- The items in the order of their keys, after runs cut off before. -/
def sortAfter (n : Nat) (runs : List (Run α)) : (fuel : Nat) → List (Data × α) →
    Except Unordered (List (Data × α))
  | 0, _ => mergeRuns runs
  | _, [] => mergeRuns runs
  | fuel + 1, items => do
    let (run, rest) ← takeRun (leastRun n 0) items
    sortAfter n (← pushRun n run runs) fuel rest

/-- Items in the order of their keys. -/
def sortByKey (items : List (Data × α)) : Except Unordered (List (Data × α)) :=
  sortAfter items.length [] items.length items

end ApiDoc
