import TieredCache.Proofs.Keyed
import TieredCache.Proofs.Lookups
import TieredCache.Proofs.PinSet

/-! A table: one finite map and one set of pinned keys, with a count of the lookups. It has no tiers,
no order, no bound and no clock. It answers the calls that make sense for it, which leaves out those
about the overflow bound, the modes and the counters. -/
namespace TieredCache
open Keyed (Apart find without copies)

structure Table (K V : Type) where
  entries : Dict K V
  pins : List K
  lookups : Lookups
  deriving DecidableEq, Repr

def Call.ofTable : Call K V → Bool
  | .setSoftSize _ | .cacheSize | .softSize | .isLru | .concurrencyHint | .counters | .resetCounters => false
  | _ => true

namespace Table
variable {K V : Type}

def empty : Table K V := ⟨.empty, [], {}⟩

variable [BEq K]

def isPinned (t : Table K V) (k : K) : Bool := t.pins.any (· == k)

def putAll (t : Table K V) (entries : List (K × V)) : Table K V :=
  { t with entries := entries.foldl (fun d e => d.insert e.1 e.2) t.entries }

variable [Identity K]

def given (t : Table K V) (op : KeyedOp) (keys : List K) (answer : Reply K V) (next : Table K V) :
    Reply K V × Table K V :=
  if keys.all Identity.valid then (answer, next) else (.refused (.keyless op), t)

def step (t : Table K V) : Call K V → Reply K V × Table K V
  | .get k =>
      let found := t.entries.find? k
      t.given .get [k] (.value found) { t with lookups := t.lookups.look found.isSome }
  | .put k v => t.given .put [k] (.value (t.entries.find? k)) { t with entries := t.entries.insert k v }
  | .putAll entries => t.given .putAll (entries.map Prod.fst) .done (t.putAll entries)
  | .remove k =>
      t.given .remove [k] (.value (t.entries.find? k))
        { t with entries := t.entries.erase k, pins := without id t.pins k }
  | .pin k => t.given .pin [k] (.flag (t.entries.contains k)) { t with pins := withPin t.pins k }
  | .unpin k => t.given .unpin [k] (.flag (t.isPinned k)) { t with pins := without id t.pins k }
  | .isPinned k => t.given .isPinned [k] (.flag (t.isPinned k)) t
  | .containsKey k => t.given .containsKey [k] (.flag (t.entries.contains k)) t
  | .peek k => t.given .peek [k] (.value (t.entries.find? k)) t
  | .size => (.count t.entries.size, t)
  | .isEmpty => (.flag (t.entries.size == 0), t)
  | .keys => (.keys ⟨t.entries.keys, [], []⟩, t)
  | .pinnedKeys => (.pinned t.pins, t)
  | .clear => (.done, empty)
  | .purge => (.count 0, t)
  | _ => (.done, t)

def run (t : Table K V) : List (Move K V) → Table K V
  | [] => t
  | .wait _ :: rest => t.run rest
  | .call call :: rest => (t.step call).2.run rest

def trace (t : Table K V) : List (Move K V) → List (Reply K V)
  | [] => []
  | .wait _ :: rest => .done :: t.trace rest
  | .call call :: rest => (t.step call).1 :: (t.step call).2.trace rest

end Table

namespace Dict
variable {K V : Type} [BEq K]

theorem insertKeys {d : Dict K V} {k : K} (held : d.contains k = true) (v : V) :
    (d.insert k v).entries.map Prod.fst = d.entries.map Prod.fst := by
  unfold insert
  rw [if_pos held, List.map_map]
  refine List.map_congr_left (fun e _ => ?_)
  simp only [Function.comp_apply]
  split <;> rfl

theorem insertApart {d : Dict K V} (apart : Apart Prod.fst d.entries) (k : K) (v : V) :
    Apart Prod.fst (d.insert k v).entries := by
  cases held : d.contains k with
  | true =>
    have keys := (Keyed.apartMapped id Prod.fst _).mpr apart
    rw [← insertKeys held v] at keys
    exact (Keyed.apartMapped id Prod.fst _).mp keys
  | false =>
    have absent : d.find? k = none := by simpa [containsFind] using held
    rw [insertAbsent absent]
    have none := absent
    rw [findEntries, Option.map_eq_none_iff, Keyed.findNone] at none
    refine Keyed.apartAppend.mpr ⟨apart, List.pairwise_singleton _ _, fun e mem x alone => ?_⟩
    rw [List.mem_singleton.mp alone]
    exact none e mem

end Dict
end TieredCache
