import ExamMarkup.Page.Compile

/-!
# The store of pages

Rendered fragments under their keys, bounded in number and in age. An entry past its age is dropped
only when it is looked up. When room is needed the oldest entry goes; of two entries of the same
instant, the one that was set first. Instants are nanoseconds on any one scale and may run
backwards.
-/

namespace ExamMarkup

open Page (Fragment)

structure Entry where
  key : Text
  fragment : Fragment
  created : Int
  /-- The bytes of the key and the markup, counted once. -/
  size : Nat
  sequence : Nat
  deriving DecidableEq, Repr

namespace Entry

def make (key : Text) (fragment : Fragment) (created : Int) (sequence : Nat) : Entry :=
  { key, fragment, created, sequence, size := key.byteSize + fragment.html.byteSize }

@[simp] theorem make_key (key : Text) (fragment : Fragment) (created : Int) (sequence : Nat) :
    (make key fragment created sequence).key = key := rfl

@[simp] theorem make_created (key : Text) (fragment : Fragment) (created : Int) (sequence : Nat) :
    (make key fragment created sequence).created = created := rfl

/-- Whether an entry is older than another, or of the same instant and set no later. -/
def precedes (a b : Entry) : Bool :=
  a.created < b.created || (a.created == b.created && a.sequence ≤ b.sequence)

end Entry

/-- Counters that can be set back to zero. -/
structure Tallies where
  hits : Nat := 0
  misses : Nat := 0
  sets : Nat := 0
  evictions : Nat := 0
  deriving DecidableEq, Repr

/-- Counters over the whole life of a store, and the number of entries last made known. -/
structure Metrics where
  hits : Nat := 0
  misses : Nat := 0
  sets : Nat := 0
  evictions : Nat := 0
  expirations : Nat := 0
  entries : Option Nat := none
  deriving DecidableEq, Repr

/-- The entries stand in the order in which they were set, each key once. -/
structure Store where
  entries : List Entry := []
  nextSequence : Nat := 0
  tallies : Tallies := {}
  metrics : Metrics := {}
  deriving DecidableEq, Repr

namespace Store

def empty : Store := {}

/-- Pages are kept for a day, in nanoseconds. -/
def defaultLifetime : Int := 24 * 60 * 60 * 1000000000

/-- The entry under a key, whatever its age. -/
def peek (s : Store) (key : Text) : Option Entry := s.entries.find? fun e => e.key == key

theorem key_of_peek {s : Store} {key : Text} {e : Entry} (h : s.peek key = some e) :
    e.key = key := by
  simpa using List.find?_some h

def remove (s : Store) (key : Text) : Store :=
  { s with entries := s.entries.filter fun e => e.key != key }

theorem peek_remove_self (s : Store) (key : Text) : (s.remove key).peek key = none := by
  simp [peek, remove]

theorem peek_remove_of_ne (s : Store) {key other : Text} (h : other ≠ key) :
    (s.remove key).peek other = s.peek other := by
  rw [peek, peek, remove, List.find?_filter]
  congr 1
  funext e
  by_cases he : e.key = other <;> simp [he, h]

def publishSize (s : Store) : Store :=
  { s with metrics := { s.metrics with entries := some s.entries.length } }

def countHit (s : Store) : Store :=
  { s with
    tallies := { s.tallies with hits := s.tallies.hits + 1 }
    metrics := { s.metrics with hits := s.metrics.hits + 1 } }

def countMiss (s : Store) : Store :=
  { s with
    tallies := { s.tallies with misses := s.tallies.misses + 1 }
    metrics := { s.metrics with misses := s.metrics.misses + 1 } }

def countSet (s : Store) : Store :=
  { s with
    tallies := { s.tallies with sets := s.tallies.sets + 1 }
    metrics := { s.metrics with sets := s.metrics.sets + 1 } }

def countEviction (s : Store) : Store :=
  { s with
    tallies := { s.tallies with evictions := s.tallies.evictions + 1 }
    metrics := { s.metrics with evictions := s.metrics.evictions + 1 } }

def countExpiration (s : Store) : Store :=
  { s with metrics := { s.metrics with expirations := s.metrics.expirations + 1 } }

/-- Whether an entry is past its age: an entry exactly of the age is still fresh. -/
def expired (lifetime now : Int) (e : Entry) : Bool := lifetime < now - e.created

/-- The fragment under a key, unless it is past its age; then it is dropped and counts as
missing. -/
def lookup (s : Store) (lifetime now : Int) (key : Text) : Option Fragment × Store :=
  match s.peek key with
  | none => (none, s.countMiss)
  | some e =>
    if expired lifetime now e then
      (none, (s.remove key).countMiss.countExpiration.publishSize)
    else (some e.fragment, s.countHit)

/-- The markup under a key, as `lookup` finds it. -/
def get (s : Store) (lifetime now : Int) (key : Text) : Option Text × Store :=
  let (fragment, s) := s.lookup lifetime now key
  (fragment.map Fragment.html, s)

/-- The first entry in the order of age. -/
def oldest? : List Entry → Option Entry
  | [] => none
  | e :: rest =>
    match oldest? rest with
    | none => some e
    | some other => if e.precedes other then some e else some other

def evictOldest (s : Store) : Store :=
  match oldest? s.entries with
  | none => s
  | some e => (s.remove e.key).countEviction

/-- The oldest entries gone, as many as are given. -/
def evict : Nat → Store → Store
  | 0, s => s
  | n + 1, s => evict n s.evictOldest

/-- Room for one more entry under a capacity; a capacity of zero counts as one. -/
def makeRoom (s : Store) (capacity : Nat) : Store :=
  s.evict (s.entries.length + 1 - max capacity 1)

/-- A store that can take a key: only a key that is not there yet makes others give way. -/
def roomFor (s : Store) (capacity : Nat) (key : Text) : Store :=
  if (s.peek key).isSome then s else s.makeRoom capacity

/-- A fragment put behind all entries, in place of the one under its key. -/
def put (s : Store) (now : Int) (key : Text) (fragment : Fragment) : Store :=
  { s with
    entries := (s.remove key).entries ++ [.make key fragment now s.nextSequence]
    nextSequence := s.nextSequence + 1 }

theorem peek_put_self (s : Store) (now : Int) (key : Text) (fragment : Fragment) :
    (s.put now key fragment).peek key = some (.make key fragment now s.nextSequence) := by
  have hnone : (s.remove key).entries.find? (fun e => e.key == key) = none :=
    peek_remove_self s key
  simp [peek, put, List.find?_append, hnone]

theorem peek_put_of_ne (s : Store) (now : Int) {key other : Text} (fragment : Fragment)
    (h : other ≠ key) : (s.put now key fragment).peek other = s.peek other := by
  have hsame : (s.remove key).entries.find? (fun e => e.key == other) = s.peek other :=
    peek_remove_of_ne s h
  simp [peek, put, List.find?_append, hsame, Ne.symm h]

/-- A fragment put under a key, within a capacity. -/
def set (s : Store) (capacity : Nat) (now : Int) (key : Text) (fragment : Fragment) : Store :=
  ((s.roomFor capacity key).put now key fragment).countSet.publishSize

/-- All entries gone; the counters stay. -/
def clear (s : Store) : Store := publishSize { s with entries := [] }

def resetTallies (s : Store) : Store := { s with tallies := {} }

def keys (s : Store) : List Text := Text.sorted (s.entries.map Entry.key)

def byteSize (s : Store) : Nat := (s.entries.map Entry.size).foldr (· + ·) 0

end Store

end ExamMarkup
