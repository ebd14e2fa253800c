import Mathlib.Data.List.Forall2
import TieredCache.Proofs.LineCalls

/-! The overflow tier under any calls at any times, one after another, beside a line that keeps no
stale records. Call by call the two give the same reply. Only a purge tells the keys in the order of
the tier's map, each under the spelling it was first stored with. -/
namespace TieredCache
open Keyed (Apart find without)
variable {K V : Type}

namespace Line

def bare (bound lifetime : Option Nat) : Line K V := ⟨[], bound, lifetime⟩

variable [BEq K]

def withdraw (l : Line K V) (now : Nat) (k : K) : Withdrawal V × Line K V :=
  match find Admission.key l.waiting k with
  | none => (.absent, l)
  | some a => (if a.expired l.lifetime now then .expired else .live a.value, l.remove k)

def step (l : Line K V) (now : Nat) : Overflow.Call K V → Overflow.Reply K V × Line K V
  | .accept k v => let accepted := l.accept now k v; (.receipt accepted.1, accepted.2)
  | .lookup k => (.value (l.lookup now k), l)
  | .contains k => (.flag (l.lookup now k).isSome, l)
  | .withdraw k => let taken := l.withdraw now k; (.withdrawn taken.1, taken.2)
  | .dropExpired => let purged := l.purge now; (.expired purged.1, purged.2)
  | .setBound n => let fitted := fit { l with bound := n }; (.displaced fitted.1, fitted.2)
  | .enabled => (.flag (l.bound ≠ some 0), l)
  | .bound => (.bound l.bound, l)
  | .clear => (.done, bare l.bound l.lifetime)

def run (l : Line K V) (calls : List (Nat × Overflow.Call K V)) : Line K V :=
  calls.foldl (fun l call => (l.step call.1 call.2).2) l

def trace (l : Line K V) : List (Nat × Overflow.Call K V) → List (Overflow.Reply K V)
  | [] => []
  | call :: rest => (l.step call.1 call.2).1 :: (l.step call.1 call.2).2.trace rest

theorem withdrawForm (l : Line K V) (now : Nat) (k : K) :
    l.withdraw now k = (match find Admission.key l.waiting k with
      | none => .absent
      | some a => if a.expired l.lifetime now then .expired else .live a.value, l.remove k) := by
  unfold withdraw
  cases found : find Admission.key l.waiting k with
  | none =>
    have same : l.remove k = l := congrArg (fun waiting => { l with waiting })
      (Keyed.withoutNone (Keyed.findNone.mp found))
    simp only [same]
  | some a => rfl

end Line

namespace Overflow
variable [BEq K] {o : Overflow K V} {l : Line K V}

def trace (o : Overflow K V) : List (Nat × Call K V) → List (Reply K V)
  | [] => []
  | call :: rest => (o.step call.1 call.2).1 :: (o.step call.1 call.2).2.trace rest

def Reply.Matches : Reply K V → Reply K V → Prop
  | .expired dropped, .expired purged =>
      ∃ named, dropped.Perm named ∧ List.Forall₂ (fun j k => (j == k) = true) named purged
  | reply, answer => reply = answer

/-- What the overflow tier holds, read off its own structures. -/
structure Queues (o : Overflow K V) (l : Line K V) : Prop where
  admissions : o.admissions = l.waiting
  size : o.held.size = l.waiting.length
  liveSize : ∀ now, o.liveSize now = (l.live now).length
  liveKeys : ∀ now, o.liveKeys now = (l.live now).map Admission.key
  settings : (o.bound, o.lifetime) = (l.bound, l.lifetime)

/- Which spelling a handle is held under does not matter to the line. -/
def Holds (o : Overflow K V) (l : Line K V) : Prop := o.Spelled (fun _ => True) l

theorem emptyHolds (bound lifetime : Option Nat) :
    (empty bound lifetime : Overflow K V).Holds (Line.bare bound lifetime) :=
  ⟨[], ⟨Queued.empty, by simp [empty]⟩, by simp, rfl⟩

theorem showsHolds (shows : o.Shows l) : o.Holds l := by
  obtain ⟨cells, layout, _, same⟩ := shows
  exact ⟨cells, layout, fun _ _ => trivial, same⟩

theorem enabledShown (holds : o.Holds l) : o.enabled = decide (l.bound ≠ some 0) := by
  have bound := boundShown holds
  simp only [enabled, bound]

variable [EquivBEq K]

theorem holdsQueues (holds : o.Holds l) : o.Queues l where
  admissions := admissionsShown holds
  size := heldSize holds
  liveSize := liveSizeShown holds
  liveKeys := liveKeysShown holds
  settings := by simp [boundShown holds, lifetimeShown holds]

theorem acceptHolds (holds : o.Holds l) (now : Nat) (k : K) (v : V) :
    (o.accept now k v).1 = (l.accept now k v).1 ∧ (o.accept now k v).2.Holds (l.accept now k v).2 :=
  acceptSpelled holds now k v (fun _ _ _ _ => trivial)

theorem withdrawHolds (holds : o.Holds l) (now : Nat) (k : K) :
    (o.withdraw now k).1 = (l.withdraw now k).1 ∧
    (o.withdraw now k).2.Holds (l.withdraw now k).2 := by
  have form := l.withdrawForm now k
  simp only [form]
  exact withdrawSpelled holds now k

theorem dropExpiredHolds (holds : o.Holds l) (now : Nat) :
    (Reply.expired (o.dropExpired now).1 : Reply K V).Matches (.expired (l.purge now).1) ∧
    (o.dropExpired now).2.Holds (l.purge now).2 := by
  obtain ⟨gone, spelled, dropped, purged, left⟩ := purgeSpelled holds now
  have same : List.Forall₂ (fun j k => (j == k) = true) (gone.map Cell.name) (gone.map Cell.key) := by
    rw [List.forall₂_map_left_iff, List.forall₂_map_right_iff, List.forall₂_same]
    exact fun c mem => (spelled c mem).2
  exact ⟨⟨gone.map Cell.name, dropped, purged ▸ same⟩, left⟩

theorem stepHolds (holds : o.Holds l) (now : Nat) (call : Call K V) :
    (o.step now call).1.Matches (l.step now call).1 ∧ (o.step now call).2.Holds (l.step now call).2 := by
  cases call with
  | accept k v =>
    obtain ⟨receipt, accepted⟩ := acceptHolds holds now k v
    exact ⟨congrArg Reply.receipt receipt, accepted⟩
  | lookup k => exact ⟨congrArg Reply.value (lookupShown holds now k), holds⟩
  | contains k =>
    have found := congrArg Option.isSome (lookupShown holds now k)
    exact ⟨congrArg Reply.flag found, holds⟩
  | withdraw k =>
    obtain ⟨found, taken⟩ := withdrawHolds holds now k
    exact ⟨congrArg Reply.withdrawn found, taken⟩
  | dropExpired => exact dropExpiredHolds holds now
  | setBound n =>
    obtain ⟨displaced, left⟩ := setBoundSpelled holds n
    exact ⟨congrArg Reply.displaced displaced, left⟩
  | enabled => exact ⟨congrArg Reply.flag (enabledShown holds), holds⟩
  | bound => exact ⟨congrArg Reply.bound (boundShown holds).symm, holds⟩
  | clear => exact ⟨rfl, clearSpelled holds⟩

theorem runHolds (holds : o.Holds l) (calls : List (Nat × Call K V)) :
    List.Forall₂ Reply.Matches (o.trace calls) (l.trace calls) ∧ (o.run calls).Holds (l.run calls) := by
  induction calls generalizing o l with
  | nil => exact ⟨.nil, holds⟩
  | cons call rest ih =>
    obtain ⟨reply, next⟩ := stepHolds holds call.1 call.2
    obtain ⟨replies, last⟩ := ih next
    exact ⟨.cons reply replies, last⟩

theorem runQueues (bound lifetime : Option Nat) (calls : List (Nat × Call K V)) :
    let tier := (empty bound lifetime).run calls
    let line := (Line.bare bound lifetime).run calls
    List.Forall₂ Reply.Matches ((empty bound lifetime).trace calls)
      ((Line.bare bound lifetime).trace calls) ∧
    tier.Queues line ∧ Apart Admission.key line.waiting := by
  intro tier line
  obtain ⟨replies, holds⟩ := runHolds (emptyHolds bound lifetime) calls
  exact ⟨replies, holdsQueues holds, waitingApart holds⟩

/- Key 1 is taken out and comes again, so that its first record is stale; time goes back, and an
entry admitted at 20 is live at 5; key 2 replaces itself in silence, and then the bound falls to 1. -/
theorem runQueuesSmall :
    let calls : List (Nat × Call Nat Nat) :=
      [(0, .accept 1 10), (1, .accept 2 20), (2, .withdraw 1), (3, .accept 1 11), (20, .accept 3 30),
        (5, .accept 2 21), (5, .accept 2 22), (5, .lookup 3), (6, .accept 4 40), (6, .setBound (some 1)),
        (15, .contains 4), (16, .dropExpired), (17, .setBound (some 0)), (17, .accept 5 50)]
    let tier := (empty (some 3) (some 10)).run calls
    let line := (Line.bare (some 3) (some 10)).run calls
    (Line.bare (some 3) (some 10)).trace calls =
      [.receipt (.admitted []), .receipt (.admitted []), .withdrawn (.live 10), .receipt (.admitted []),
        .receipt (.admitted [2, 1]), .receipt (.admitted []), .receipt (.admitted []), .value (some 30),
        .receipt (.admitted []), .displaced [3, 2], .flag true, .expired [4], .displaced [],
        .receipt (.refused 5)] ∧
    List.Forall₂ Reply.Matches ((empty (some 3) (some 10)).trace calls)
      ((Line.bare (some 3) (some 10)).trace calls) ∧
    tier.Queues line ∧ Apart Admission.key line.waiting :=
  ⟨by decide, runQueues (some 3) (some 10) _⟩

end Overflow
end TieredCache
