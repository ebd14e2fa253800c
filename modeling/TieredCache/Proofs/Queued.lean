import Mathlib.Data.List.Basic
import TieredCache.Proofs.Keyed
import TieredCache.Overflow

/-! What the overflow tier holds, read off its queue. The current records, front to back, are the
handles held, oldest admission first; a record between them is stale and stays so, because a key
admitted again takes a generation no record has. A handle may be held under another spelling of the
key than its record has. -/
namespace TieredCache.Overflow
open Keyed (Apart find without)
variable {K V : Type}

structure Cell (K V : Type) where
  name : K
  key : K
  handle : Handle V

def Cell.record (c : Cell K V) : Record K := ⟨c.key, c.handle.generation⟩

def Cell.held (c : Cell K V) : K × Handle V := (c.name, c.handle)

variable [BEq K]

def isCurrent (held : Dict K (Handle V)) (r : Record K) : Bool := (current held r).isSome

structure Queued (held : Dict K (Handle V)) (queue : List (Record K)) (cells : List (Cell K V)) :
    Prop where
  handles : held.entries.Perm (cells.map Cell.held)
  records : queue.filter (isCurrent held) = cells.map Cell.record
  spelled : ∀ c ∈ cells, (c.name == c.key) = true
  apart : Apart Cell.key cells
  ascending : queue.Pairwise (fun a b => a.generation < b.generation)

namespace Queued
variable {held : Dict K (Handle V)} {queue : List (Record K)} {cells : List (Cell K V)}

theorem empty : Queued (Dict.empty : Dict K (Handle V)) [] [] :=
  ⟨List.Perm.nil, rfl, by simp, List.Pairwise.nil, List.Pairwise.nil⟩

theorem size (queued : Queued held queue cells) : held.size = cells.length := by
  simpa [Dict.size] using queued.handles.length_eq

theorem dropStale {r : Record K} (queued : Queued held (r :: queue) cells)
    (stale : current held r = none) : Queued held queue cells where
  handles := queued.handles
  records := by simpa [isCurrent, stale] using queued.records
  spelled := queued.spelled
  apart := queued.apart
  ascending := (List.pairwise_cons.mp queued.ascending).2

theorem compacted (queued : Queued held queue cells) :
    Queued held (queue.filter (isCurrent held)) cells where
  handles := queued.handles
  records := by simpa [List.filter_filter] using queued.records
  spelled := queued.spelled
  apart := queued.apart
  ascending := queued.ascending.sublist List.filter_sublist

variable [EquivBEq K]

theorem named (queued : Queued held queue cells) {c : Cell K V} (mem : c ∈ cells) (k : K) :
    (c.name == k) = (c.key == k) := BEq.congr_left (queued.spelled c mem)

theorem nameApart (queued : Queued held queue cells) : Apart Cell.name cells := by
  refine List.Pairwise.imp_of_mem ?_ queued.apart
  intro a b a_mem b_mem other
  rw [queued.named a_mem, BEq.congr_right (queued.spelled b b_mem)]
  exact other

theorem findHeld (queued : Queued held queue cells) (k : K) :
    held.find? k = (find Cell.key cells k).map Cell.handle := by
  have apart : Apart Prod.fst (cells.map Cell.held) :=
    (Keyed.apartMapped Prod.fst Cell.held cells).mpr queued.nameApart
  have same : find (fun c : Cell K V => (Cell.held c).1) cells k = find Cell.key cells k :=
    Keyed.findCongr (fun c mem => queued.named mem k)
  rw [Dict.findPermuted queued.handles apart, Keyed.findMapped, same, Option.map_map]
  rfl

theorem currentRecord (queued : Queued held queue cells) {c : Cell K V} (mem : c ∈ cells) :
    current held c.record = some c.handle := by
  unfold current
  rw [queued.findHeld, show c.record.key = c.key from rfl,
    Keyed.findOf queued.apart mem (BEq.refl c.key)]
  simp [Cell.record]

theorem frontCurrent {r : Record K} (queued : Queued held (r :: queue) cells) {h : Handle V}
    (front : current held r = some h) :
    ∃ c rest, cells = c :: rest ∧ c.record = r ∧ c.handle = h := by
  have records := queued.records
  rw [List.filter_cons_of_pos (by simp [isCurrent, front])] at records
  cases cells with
  | nil => simp at records
  | cons c rest =>
    obtain ⟨same, _⟩ := List.cons.inj records
    have at_c := queued.currentRecord (show c ∈ c :: rest by simp)
    rw [← same, front] at at_c
    exact ⟨c, rest, rfl, same.symm, (Option.some.inj at_c).symm⟩

theorem currentErased (k : K) (r : Record K) :
    current (held.erase k) r = if k == r.key then none else current held r := by
  unfold current
  cases at_k : k == r.key with
  | true => simp [Dict.findEraseSame held at_k]
  | false => simp [Dict.findEraseOther held at_k]

theorem erase (queued : Queued held queue cells) (k : K) :
    Queued (held.erase k) queue (without Cell.key cells k) where
  handles := by
    have perm := Keyed.withoutPerm Prod.fst queued.handles k
    rw [Keyed.withoutMapped] at perm
    rw [Dict.eraseEntries]
    have same : without (fun c : Cell K V => (Cell.held c).1) cells k = without Cell.key cells k :=
      List.filter_congr (fun c mem => congrArg not (queued.named mem k))
    rwa [same] at perm
  records := by
    have stale : ∀ r : Record K, isCurrent (held.erase k) r = (!(r.key == k) && isCurrent held r) := by
      intro r
      unfold isCurrent
      rw [currentErased, BEq.comm]
      cases r.key == k <;> simp
    rw [funext stale, ← List.filter_filter, queued.records]
    exact Keyed.withoutMapped Record.key Cell.record cells k
  spelled := fun c mem => queued.spelled c (Keyed.withoutMem.mp mem).1
  apart := Keyed.apartWithout queued.apart k
  ascending := queued.ascending

theorem eraseFront {c : Cell K V} {rest : List (Cell K V)} {r : Record K}
    (queued : Queued held (r :: queue) (c :: rest)) (front : c.record = r) :
    Queued (held.erase r.key) queue rest := by
  have erased := queued.erase r.key
  have at_key : (c.key == r.key) = true := by
    rw [← front]
    exact BEq.refl c.key
  have first : without Cell.key (c :: rest) r.key = rest :=
    Keyed.withoutAround (show Apart Cell.key ([] ++ c :: rest) from queued.apart) at_key
  rw [first] at erased
  refine erased.dropStale ?_
  rw [currentErased, if_pos (BEq.refl r.key)]

theorem sweep (lifetime : Option Nat) (now : Nat) (queued : Queued held queue cells) :
    (sweepQueue lifetime now queue held).1 =
        (cells.takeWhile (fun c => c.handle.expired lifetime now)).map Cell.key ∧
    Queued (sweepQueue lifetime now queue held).2.2 (sweepQueue lifetime now queue held).2.1
        (cells.dropWhile (fun c => c.handle.expired lifetime now)) ∧
    (sweepQueue lifetime now queue held).2.1.Sublist queue := by
  induction queue generalizing held cells with
  | nil =>
    have none : cells = [] := by simpa using queued.records.symm
    subst none
    exact ⟨rfl, queued, List.Sublist.refl []⟩
  | cons r rest ih =>
    unfold sweepQueue
    cases front : current held r with
    | none =>
      -- A stale record is that of no cell.
      obtain ⟨swept, left, sub⟩ := ih (queued.dropStale front)
      exact ⟨swept, left, sub.cons r⟩
    | some h =>
      obtain ⟨c, cells, rfl, record, rfl⟩ := queued.frontCurrent front
      have key : c.key = r.key := congrArg Record.key record
      cases expired : c.handle.expired lifetime now with
      | true =>
        obtain ⟨swept, left, sub⟩ := ih (queued.eraseFront record)
        simp only [if_true, List.takeWhile_cons, List.dropWhile_cons, expired, List.map_cons]
        exact ⟨by rw [swept, key], left, sub.cons r⟩
      | false =>
        simp only [Bool.false_eq_true, if_false, List.takeWhile_cons, List.dropWhile_cons, expired]
        exact ⟨rfl, queued, List.Sublist.refl _⟩

/- The spelling a key is held under outlives a new admission of the key. -/
def nameOf (cells : List (Cell K V)) (k : K) : K := ((find Cell.key cells k).map Cell.name).getD k

def readmitted (cells : List (Cell K V)) (k : K) (h : Handle V) : List (Cell K V) :=
  without Cell.key cells k ++ [⟨nameOf cells k, k, h⟩]

theorem storeHandles (queued : Queued held queue cells) (k : K) (h : Handle V) :
    (held.insert k h).entries.Perm ((readmitted cells k h).map Cell.held) := by
  have look := queued.findHeld k
  have last (rest : List (Cell K V)) (c : Cell K V) :
      ((c :: rest).map Cell.held).Perm ((rest ++ [c]).map Cell.held) :=
    (List.perm_append_singleton c rest).symm.map _
  unfold readmitted nameOf
  cases found : find Cell.key cells k with
  | none =>
    have absent : held.find? k = none := by simp [look, found]
    rw [Dict.insertAbsent absent, Keyed.withoutNone (Keyed.findNone.mp found), List.map_append]
    exact queued.handles.append_right _
  | some c =>
    obtain ⟨mem, at_k⟩ := Keyed.findMem found
    obtain ⟨before, after, rfl⟩ := List.append_of_mem mem
    have around := Keyed.apartAround queued.apart at_k
    have present : held.contains k = true := by simp [Dict.contains, look, found]
    have kept : ∀ rest : List (Cell K V), (∀ d ∈ rest, d ∈ before ++ c :: after) →
        (∀ d ∈ rest, (d.key == k) = false) →
        (rest.map Cell.held).map (fun e => if e.1 == k then (e.1, h) else e) = rest.map Cell.held := by
      intro rest sub out
      rw [List.map_map]
      refine List.map_congr_left (fun d mem => ?_)
      have other : (d.name == k) = false := (queued.named (sub d mem) k).trans (out d mem)
      simp [Cell.held, other]
    have replaced := queued.handles.map (fun e : K × Handle V => if e.1 == k then (e.1, h) else e)
    rw [List.map_append, List.map_cons, List.map_append, List.map_cons,
      kept before (fun d mem => by simp [mem]) around.1,
      kept after (fun d mem => by simp [mem]) around.2] at replaced
    have at_name : (c.held.1 == k) = true := (queued.named mem k).trans at_k
    rw [if_pos at_name] at replaced
    unfold Dict.insert
    rw [if_pos present, Keyed.withoutAround queued.apart at_k]
    refine replaced.trans (List.perm_middle.trans ?_)
    simpa [Cell.held] using last (before ++ after) ⟨c.name, k, h⟩

theorem store (queued : Queued held queue cells) (k : K) (v : V) (now : Nat) {generation : Nat}
    (fresh : ∀ r ∈ queue, r.generation < generation) :
    Queued (held.insert k ⟨v, now, generation⟩) (queue ++ [⟨k, generation⟩])
      (readmitted cells k ⟨v, now, generation⟩) where
  handles := queued.storeHandles k ⟨v, now, generation⟩
  records := by
    have stale : ∀ r ∈ queue, isCurrent (held.insert k ⟨v, now, generation⟩) r =
        (!(r.key == k) && isCurrent held r) := by
      intro r mem
      unfold isCurrent Overflow.current
      cases at_k : r.key == k with
      | true =>
        -- An older record of the key itself names a generation that is not held any more.
        have late := fresh r mem
        have differ : generation ≠ r.generation := by omega
        simp [Dict.findInsertSame held _ (BEq.symm at_k), differ]
      | false => simp [Dict.findInsertOther held _ (Keyed.unequalSymm at_k)]
    have latest : isCurrent (held.insert k ⟨v, now, generation⟩) ⟨k, generation⟩ = true := by
      simp [isCurrent, Overflow.current, Dict.findInsertSame held _ (BEq.refl k)]
    rw [List.filter_append, List.filter_congr stale, ← List.filter_filter, queued.records]
    have rest := Keyed.withoutMapped Record.key Cell.record cells k
    unfold without at rest
    simp only [readmitted, List.map_append, List.filter_cons, latest]
    rw [rest]
    rfl
  spelled := by
    intro c mem
    rcases List.mem_append.mp mem with mem | mem
    · exact queued.spelled c (Keyed.withoutMem.mp mem).1
    · obtain rfl := List.mem_singleton.mp mem
      unfold nameOf
      cases found : find Cell.key cells k with
      | none => exact BEq.refl k
      | some d =>
        obtain ⟨d_mem, at_k⟩ := Keyed.findMem found
        exact (queued.named d_mem k).trans at_k
  apart := by
    refine Keyed.apartAppend.mpr ⟨Keyed.apartWithout queued.apart k, by simp [Apart], ?_⟩
    intro c mem d also
    obtain rfl := List.mem_singleton.mp also
    exact (Keyed.withoutMem.mp mem).2
  ascending := by
    refine List.pairwise_append.mpr ⟨queued.ascending, by simp, ?_⟩
    intro a mem b also
    obtain rfl := List.mem_singleton.mp also
    exact fresh a mem

theorem liveRecords (queued : Queued held queue cells) (live : Handle V → Bool) :
    queue.filter (fun r => (current held r).any live) =
      (cells.filter (fun c => live c.handle)).map Cell.record := by
  have both : ∀ r : Record K, (current held r).any live =
      ((current held r).any live && isCurrent held r) := by
    intro r
    unfold isCurrent
    cases current held r <;> simp
  rw [funext both, ← List.filter_filter, queued.records, List.filter_map]
  refine congrArg _ (List.filter_congr (fun c mem => ?_))
  simp [queued.currentRecord mem]

theorem currentHandles (queued : Queued held queue cells) :
    queue.filterMap (fun r => (current held r).map (fun h => (r.key, h))) =
      cells.map (fun c => (c.key, c.handle)) := by
  have only : ∀ r : Record K, (current held r).map (fun h => (r.key, h)) =
      if isCurrent held r then (current held r).map (fun h => (r.key, h)) else none := by
    intro r
    unfold isCurrent
    cases current held r <;> rfl
  have each : ∀ c ∈ cells, (current held c.record).map (fun h => (c.record.key, h)) =
      some (c.key, c.handle) := by
    intro c mem
    rw [queued.currentRecord mem]
    rfl
  rw [funext only, ← List.filterMap_filter, queued.records, List.filterMap_map,
    List.filterMap_eq_map_iff_forall_eq_some]
  exact each

theorem keep (queued : Queued held queue cells) (live : Handle V → Bool) :
    Queued (held.filter (fun _ h => live h)) queue (cells.filter (fun c => live c.handle)) where
  handles := by
    have perm := queued.handles.filter (fun e => live e.2)
    rw [List.filter_map] at perm
    exact perm
  records := by
    have apart : Apart Prod.fst held.entries :=
      (Keyed.apartPerm queued.handles).mpr ((Keyed.apartMapped _ _ _).mpr queued.nameApart)
    have left : ∀ r : Record K, isCurrent (held.filter (fun _ h => live h)) r =
        (current held r).any live := by
      intro r
      have look : (held.filter (fun _ h => live h)).find? r.key = (held.find? r.key).filter live := by
        have found := Keyed.findFilter apart (fun e => live e.2) r.key
        rw [Dict.findEntries, Dict.findEntries]
        refine (congrArg (Option.map Prod.snd) found).trans ?_
        cases find Prod.fst held.entries r.key with
        | none => rfl
        | some e => cases alive : live e.2 <;> simp [Option.filter, alive]
      unfold isCurrent current
      rw [look]
      cases held.find? r.key with
      | none => rfl
      | some h => cases at_h : h.generation == r.generation <;> cases alive : live h <;> simp [at_h, alive]
    rw [funext left]
    exact queued.liveRecords live
  spelled := fun c mem => queued.spelled c (List.mem_filter.mp mem).1
  apart := Keyed.apartSublist queued.apart List.filter_sublist
  ascending := queued.ascending

end Queued
end TieredCache.Overflow
