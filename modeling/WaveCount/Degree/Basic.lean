/-!
# Degrees

Wave degrees from the largest to the smallest. Stepping up or down never skips a degree, and a
band is a run of neighbouring degrees, cut off where the scale ends.
-/

namespace WaveCount

inductive Degree where
  | grandSupercycle
  | supercycle
  | cycle
  | primary
  | intermediate
  | minor
  | minute
  | minuette
  | subMinuette
  deriving DecidableEq, Repr

namespace Degree

def all : List Degree :=
  [grandSupercycle, supercycle, cycle, primary, intermediate, minor, minute, minuette, subMinuette]

def name : Degree → String
  | grandSupercycle => "GRAND_SUPERCYCLE"
  | supercycle => "SUPERCYCLE"
  | cycle => "CYCLE"
  | primary => "PRIMARY"
  | intermediate => "INTERMEDIATE"
  | minor => "MINOR"
  | minute => "MINUTE"
  | minuette => "MINUETTE"
  | subMinuette => "SUB_MINUETTE"

def rank : Degree → Nat
  | grandSupercycle => 0
  | supercycle => 1
  | cycle => 2
  | primary => 3
  | intermediate => 4
  | minor => 5
  | minute => 6
  | minuette => 7
  | subMinuette => 8

def ofRank? (n : Nat) : Option Degree := all[n]?

theorem ofRank?_rank (d : Degree) : ofRank? d.rank = some d := by cases d <;> rfl

theorem rank_injective {d e : Degree} (h : d.rank = e.rank) : d = e := by
  have := ofRank?_rank d
  rw [h, ofRank?_rank] at this
  exact (Option.some.inj this).symm

theorem mem_all (d : Degree) : d ∈ all := List.mem_of_getElem? (ofRank?_rank d)

def higher? (d : Degree) : Option Degree :=
  match d.rank with
  | 0 => none
  | n + 1 => ofRank? n

def lower? (d : Degree) : Option Degree := ofRank? (d.rank + 1)

theorem higher?_eq_some_iff {d e : Degree} : d.higher? = some e ↔ e.lower? = some d := by
  cases d <;> cases e <;> decide

def walk (next : Degree → Option Degree) : Nat → Degree → List Degree
  | 0, _ => []
  | n + 1, d =>
    match next d with
    | some e => e :: walk next n e
    | none => []

def stepsHigher (d : Degree) (n : Nat) : List Degree := walk higher? n d

def stepsLower (d : Degree) (n : Nat) : List Degree := walk lower? n d

def band (d : Degree) (higher lower : Nat) : List Degree :=
  (d.stepsHigher higher).reverse ++ d :: d.stepsLower lower

theorem mem_band (d : Degree) (higher lower : Nat) : d ∈ d.band higher lower := by simp [band]

def stepsTo (d e : Degree) : Int := d.rank - e.rank

end Degree

structure Band where
  degree : Degree
  higher : Nat
  lower : Nat
  deriving DecidableEq, Repr

def Band.degrees (b : Band) : List Degree := b.degree.band b.higher b.lower

end WaveCount
