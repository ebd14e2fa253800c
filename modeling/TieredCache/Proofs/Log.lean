import TieredCache.Proofs.Refinement
import TieredCache.Proofs.Stock

/-! What a session leaves on record. Every call is noted with what it answered, a batch as the puts
it is made of, and each note is followed by what was heard meanwhile. -/
namespace TieredCache
variable {K V : Type}

inductive Note (K V : Type) where
  | read (key : K) (answer : Option V)
  | put (key : K) (value : V) (previous : Option V)
  | remove (key : K) (removed : Option V)
  | emptied
  | other (call : Call K V)
  | heard (event : Event K V)
  deriving DecidableEq, Repr

namespace Cache
variable [BEq K]

def putNotes (filter : Filter K V) (now : Nat) (c : Cache K V) (k : K) (v : V) : List (Note K V) :=
  let stored := c.store filter now k v
  .put k v stored.answer :: stored.events.map .heard

def batchNotes (filter : Filter K V) (now : Nat) (c : Cache K V) : List (K × V) → List (Note K V)
  | [] => []
  | (k, v) :: rest =>
      c.putNotes filter now k v ++ (c.store filter now k v).cache.batchNotes filter now rest

variable [Identity K]

def notes (filter : Filter K V) (now : Nat) (c : Cache K V) (call : Call K V) : List (Note K V) :=
  let outcome := c.step filter now call
  let heard := outcome.events.map .heard
  match call, outcome.answer with
  | .get k, .value answer => .read k answer :: heard
  | .peek k, .value answer => .read k answer :: heard
  | .put k v, .value previous => .put k v previous :: heard
  | .putAll entries, .done => c.batchNotes filter now entries
  | .remove k, .value removed => .remove k removed :: heard
  | .clear, _ => .emptied :: heard
  | call, _ => .other call :: heard

end Cache

def Session.log [BEq K] [Identity K] (filter : Filter K V) (s : Session K V) :
    List (Move K V) → List (Note K V)
  | [] => []
  | .wait time :: rest => { s with now := s.now + time : Session K V }.log filter rest
  | .call call :: rest =>
      s.cache.notes filter s.now call ++
        { s with cache := (s.cache.step filter s.now call).cache : Session K V }.log filter rest

namespace Note

def event? : Note K V → Option (Event K V)
  | .heard event => some event
  | _ => none

def returned : Note K V → Option (K × V)
  | .read k (some v) => some (k, v)
  | .put k _ (some v) => some (k, v)
  | .remove k (some v) => some (k, v)
  | _ => none

theorem returnedRead (k : K) (answer : Option V) : (read k answer).returned = answer.map (k, ·) := by
  cases answer <;> rfl

theorem returnedPut (k : K) (v : V) (previous : Option V) :
    (put k v previous).returned = previous.map (k, ·) := by
  cases previous <;> rfl

theorem returnedRemove (k : K) (removed : Option V) :
    (remove k removed).returned = removed.map (k, ·) := by
  cases removed <;> rfl

variable [BEq K]

def creates (k : K) : Note K V → Bool
  | .put j _ previous => previous.isNone && j == k
  | _ => false

def takes (k : K) : Note K V → Bool
  | .remove j removed => removed.isSome && j == k
  | _ => false

def loses (k : K) : Note K V → Bool
  | .heard event => event.loses k
  | _ => false

def puts (k : K) : Note K V → Bool
  | .put j _ _ => j == k
  | _ => false

def writes (k : K) : Note K V → Bool
  | .put j _ _ => j == k
  | .remove j _ => j == k
  | .emptied => true
  | _ => false

end Note

theorem Note.heardEvents (events : List (Event K V)) :
    (events.map Note.heard).filterMap Note.event? = events := by
  rw [List.filterMap_map]
  exact List.filterMap_some

theorem Cache.batchHeard [BEq K] (filter : Filter K V) (now : Nat) (entries : List (K × V))
    (c : Cache K V) :
    (c.batchNotes filter now entries).filterMap Note.event? = (c.storeAll filter now entries).events := by
  induction entries generalizing c with
  | nil => rfl
  | cons e rest ih =>
    have others := ih (c.store filter now e.1 e.2).cache
    unfold batchNotes putNotes storeAll
    rw [List.filterMap_append, others]
    exact congrArg (· ++ _) (Note.heardEvents _)

theorem Cache.notesHeard [BEq K] [Identity K] (filter : Filter K V) (now : Nat) (c : Cache K V)
    (call : Call K V) :
    (c.notes filter now call).filterMap Note.event? = (c.step filter now call).events := by
  unfold notes
  dsimp only
  split
  case h_4 entries done =>
    have batch := batchHeard filter now entries c
    simp only [Cache.step, Cache.putAll, checkAllEq] at done ⊢
    cases valid : (entries.map Prod.fst).all Identity.valid with
    | false =>
      rw [valid] at done
      simp [replied, bind, Except.bind] at done
    | true => exact batch
  all_goals exact Note.heardEvents _

end TieredCache
