import TieredCache.Dict

/-! The overflow tier: entries held at best effort. A handle expires once its age reaches the
lifetime; past the bound the oldest admissions go. Admissions queue up as records of key and
generation. A record is current while its key is held with that generation and stale ever
after; stale records stay in the queue until they reach its front or outnumber the handles.
Times are in any one unit, and nothing here assumes that they grow: before its admission an
entry has the age zero. -/
namespace TieredCache

structure Handle (V : Type) where
  value : V
  admitted : Nat
  generation : Nat
  deriving DecidableEq, Repr

structure Record (K : Type) where
  key : K
  generation : Nat
  deriving DecidableEq, Repr

inductive Receipt (K : Type) where
  | refused (key : K)
  | admitted (displaced : List K)
  deriving DecidableEq, Repr

def Receipt.dropped : Receipt K → List K
  | .refused k => [k]
  | .admitted ks => ks

inductive Withdrawal (V : Type) where
  | live (value : V)
  | expired
  | absent
  deriving DecidableEq, Repr

namespace Handle
variable {V : Type}

def expired (h : Handle V) (lifetime : Option Nat) (now : Nat) : Bool :=
  match lifetime with
  | some span => span ≤ now - h.admitted
  | none => false

def live? (h : Handle V) (lifetime : Option Nat) (now : Nat) : Option V :=
  if h.expired lifetime now then none else some h.value

end Handle

structure Overflow (K V : Type) where
  held : Dict K (Handle V)
  queue : List (Record K)
  nextGeneration : Nat
  bound : Option Nat
  lifetime : Option Nat
  deriving DecidableEq, Repr

namespace Overflow
variable {K V : Type}

def empty (bound lifetime : Option Nat) : Overflow K V := ⟨.empty, [], 0, bound, lifetime⟩

def enabled (o : Overflow K V) : Bool := o.bound ≠ some 0

def clear (o : Overflow K V) : Overflow K V := { o with held := .empty, queue := [] }

def liveSize (o : Overflow K V) (now : Nat) : Nat :=
  o.held.entries.countP (fun e => !e.2.expired o.lifetime now)

variable [BEq K]

def current (held : Dict K (Handle V)) (r : Record K) : Option (Handle V) :=
  (held.find? r.key).filter (fun h => h.generation == r.generation)

def lookup (o : Overflow K V) (now : Nat) (k : K) : Option V :=
  (o.held.find? k).bind (fun h => h.live? o.lifetime now)

def contains (o : Overflow K V) (now : Nat) (k : K) : Bool := (o.lookup now k).isSome

def liveKeys (o : Overflow K V) (now : Nat) : List K :=
  (o.queue.filter (fun r => (current o.held r).any (fun h => !h.expired o.lifetime now))).map
    Record.key

/-- Takes records off the front of the queue up to the first live one, and with them the
handles that have expired. The keys of those come first. -/
def sweepQueue (lifetime : Option Nat) (now : Nat) :
    List (Record K) → Dict K (Handle V) → List K × List (Record K) × Dict K (Handle V)
  | [], held => ([], [], held)
  | r :: rest, held =>
      match current held r with
      | none => sweepQueue lifetime now rest held
      | some h =>
          if h.expired lifetime now then
            let swept := sweepQueue lifetime now rest (held.erase r.key)
            (r.key :: swept.1, swept.2)
          else ([], r :: rest, held)

def trimQueue (limit : Nat) :
    List (Record K) → Dict K (Handle V) → List K × List (Record K) × Dict K (Handle V)
  | [], held => ([], [], held)
  | r :: rest, held =>
      if held.size ≤ limit then ([], r :: rest, held)
      else if (current held r).isSome then
        let trimmed := trimQueue limit rest (held.erase r.key)
        (r.key :: trimmed.1, trimmed.2)
      else trimQueue limit rest held

theorem trimFits {limit : Nat} {queue : List (Record K)} {held : Dict K (Handle V)} (fits : held.size ≤ limit) :
    trimQueue limit queue held = ([], queue, held) := by
  cases queue with
  | nil => rfl
  | cons r rest =>
    unfold trimQueue
    rw [if_pos fits]

theorem trimLong {limit : Nat} {r : Record K} {rest : List (Record K)} {held : Dict K (Handle V)}
    (long : ¬held.size ≤ limit) :
    trimQueue limit (r :: rest) held =
      match current held r with
      | some _ =>
          (r.key :: (trimQueue limit rest (held.erase r.key)).1, (trimQueue limit rest (held.erase r.key)).2)
      | none => trimQueue limit rest held := by
  rw [trimQueue, if_neg long]
  cases current held r <;> rfl

def sweep (o : Overflow K V) (now : Nat) : List K × Overflow K V :=
  match o.lifetime with
  | none => ([], o)
  | some span =>
      let swept := sweepQueue (some span) now o.queue o.held
      (swept.1, { o with queue := swept.2.1, held := swept.2.2 })

def trim (o : Overflow K V) : List K × Overflow K V :=
  match o.bound with
  | none => ([], o)
  | some limit =>
      let trimmed := trimQueue limit o.queue o.held
      (trimmed.1, { o with queue := trimmed.2.1, held := trimmed.2.2 })

def compact (o : Overflow K V) : Overflow K V :=
  if o.queue.length ≤ 2 * o.held.size + 16 then o
  else { o with queue := o.queue.filter (fun r => (current o.held r).isSome) }

/- Makes the entry the newest admission. A key equal to one held supersedes it in silence. -/
def store (o : Overflow K V) (now : Nat) (k : K) (v : V) : Overflow K V :=
  { o with
    held := o.held.insert k ⟨v, now, o.nextGeneration⟩
    queue := o.queue ++ [⟨k, o.nextGeneration⟩]
    nextGeneration := o.nextGeneration + 1 }

def accept (o : Overflow K V) (now : Nat) (k : K) (v : V) : Receipt K × Overflow K V :=
  if o.enabled then
    let swept := o.sweep now
    let trimmed := (swept.2.store now k v).trim
    (.admitted (swept.1 ++ trimmed.1), trimmed.2.compact)
  else (.refused k, o)

/- Takes a key out, expired or not. Its record stays behind, stale. -/
def withdraw (o : Overflow K V) (now : Nat) (k : K) : Withdrawal V × Overflow K V :=
  match o.held.find? k with
  | none => (.absent, o)
  | some h =>
      let taken := { o with held := o.held.erase k }
      match h.live? o.lifetime now with
      | some v => (.live v, taken)
      | none => (.expired, taken)

def dropExpired (o : Overflow K V) (now : Nat) : List K × Overflow K V :=
  let gone := o.held.filter (fun _ h => h.expired o.lifetime now)
  let kept := o.held.filter (fun _ h => !h.expired o.lifetime now)
  (gone.keys, { o with held := kept }.compact)

def setBound (o : Overflow K V) (bound : Option Nat) : List K × Overflow K V :=
  let trimmed := { o with bound }.trim
  (trimmed.1, trimmed.2.compact)

theorem acceptDisabled (o : Overflow K V) (now : Nat) (k : K) (v : V) (off : o.bound = some 0) :
    o.accept now k v = (.refused k, o) := by
  simp [accept, enabled, off]

theorem sweepForever (o : Overflow K V) (now : Nat) (forever : o.lifetime = none) :
    o.sweep now = ([], o) := by
  simp [sweep, forever]

theorem trimUnbounded (o : Overflow K V) (unbounded : o.bound = none) : o.trim = ([], o) := by
  simp [trim, unbounded]

inductive Call (K V : Type) where
  | accept (key : K) (value : V)
  | lookup (key : K)
  | contains (key : K)
  | withdraw (key : K)
  | dropExpired
  | setBound (bound : Option Nat)
  | enabled
  | bound
  | clear
  deriving DecidableEq, Repr

inductive Reply (K V : Type) where
  | receipt (receipt : Receipt K)
  | value (value : Option V)
  | flag (value : Bool)
  | withdrawn (found : Withdrawal V)
  | expired (keys : List K)
  | displaced (keys : List K)
  | bound (bound : Option Nat)
  | done
  deriving DecidableEq, Repr

def step (o : Overflow K V) (now : Nat) : Call K V → Reply K V × Overflow K V
  | .accept k v => let accepted := o.accept now k v; (.receipt accepted.1, accepted.2)
  | .lookup k => (.value (o.lookup now k), o)
  | .contains k => (.flag (o.contains now k), o)
  | .withdraw k => let taken := o.withdraw now k; (.withdrawn taken.1, taken.2)
  | .dropExpired => let dropped := o.dropExpired now; (.expired dropped.1, dropped.2)
  | .setBound n => let trimmed := o.setBound n; (.displaced trimmed.1, trimmed.2)
  | .enabled => (.flag o.enabled, o)
  | .bound => (.bound o.bound, o)
  | .clear => (.done, o.clear)

def run (o : Overflow K V) (calls : List (Nat × Call K V)) : Overflow K V :=
  calls.foldl (fun o call => (o.step call.1 call.2).2) o

end Overflow
end TieredCache
