import ExamMarkup.Store.Report

/-!
# Runs of a store

What may be called on a store, with the reading of the clock that a call takes, and the store that a
run of calls leaves behind.
-/

namespace ExamMarkup.Store

open Page (Fragment)

inductive Call where
  | set (capacity : Nat) (now : Int) (key : Text) (fragment : Fragment)
  | get (key : Text) (now : Int)
  | lookup (key : Text) (now : Int)
  | peek (key : Text)
  | keys
  | length
  | figures
  | clear
  | resetTallies
  deriving DecidableEq, Repr

def Call.sets (key : Text) : Call → Bool
  | .set _ _ other _ => other == key
  | _ => false

/-- The reading of the clock that a call takes. -/
def Call.reading? : Call → Option Int
  | .set _ now _ _ | .get _ now | .lookup _ now => some now
  | _ => none

/-- Whether a call looks an entry up and finds it past its age. -/
def Call.expires (lifetime : Int) (e : Entry) : Call → Bool
  | .get key now | .lookup key now => key == e.key && expired lifetime now e
  | _ => false

/-- The store after a call. -/
def step (lifetime : Int) (s : Store) : Call → Store
  | .set capacity now key fragment => s.set capacity now key fragment
  | .get key now => (s.get lifetime now key).2
  | .lookup key now => (s.lookup lifetime now key).2
  | .peek _ | .keys | .length | .figures => s
  | .clear => s.clear
  | .resetTallies => s.resetTallies

/-- The store after a run of calls. -/
def run (lifetime : Int) (s : Store) (calls : List Call) : Store := calls.foldl (step lifetime) s

@[simp] theorem run_nil (lifetime : Int) (s : Store) : s.run lifetime [] = s := rfl

@[simp] theorem run_cons (lifetime : Int) (s : Store) (c : Call) (calls : List Call) :
    s.run lifetime (c :: calls) = (s.step lifetime c).run lifetime calls := rfl

@[simp] theorem run_append (lifetime : Int) (s : Store) (before after : List Call) :
    s.run lifetime (before ++ after) = (s.run lifetime before).run lifetime after :=
  List.foldl_append

end ExamMarkup.Store
