import TieredCache.Proofs.Live

/-! A line without bound and lifetime that is offered all that leaves the shelf. It takes everything
and keeps it: no turn reports a loss, and what can be looked up under a key changes only by what a
turn writes or removes there. -/
namespace TieredCache
open Keyed (Apart find without copies)
variable {K V A : Type}

structure Line.Endless (l : Line K V) : Prop where
  unbounded : l.bound = none
  lasting : l.lifetime = none

namespace Line.Endless
variable {l : Line K V}

theorem expired (endless : l.Endless) (a : Admission K V) (now : Nat) :
    a.expired l.lifetime now = false := by
  rw [endless.lasting]
  rfl

theorem live (endless : l.Endless) (now : Nat) : l.live now = l.waiting := by
  refine List.filter_eq_self.mpr (fun a _ => ?_)
  rw [isLive, endless.expired]
  rfl

theorem offer (endless : l.Endless) (now : Nat) (k : K) (v : V) :
    (l.offer .all now k v).1 = [] ∧ (l.offer .all now k v).2.Endless := by
  obtain ⟨bound, lifetime⟩ := offerKeeps .all l now k v
  refine ⟨?_, bound.trans endless.unbounded, lifetime.trans endless.lasting⟩
  have front : l.waiting.takeWhile (fun a => a.expired l.lifetime now) = [] := by
    cases l.waiting with
    | nil => rfl
    | cons a rest => simp [endless.expired]
  unfold Line.offer enqueue fit excess
  simp [Filter.all, endless.unbounded, front]

theorem receive (endless : l.Endless) (now : Nat) (victims : List (K × V)) :
    (l.receive .all now victims).1 = [] ∧ (l.receive .all now victims).2.Endless := by
  induction victims generalizing l with
  | nil => exact ⟨rfl, endless⟩
  | cons e rest ih =>
    obtain ⟨nothing, first⟩ := endless.offer now e.1 e.2
    obtain ⟨none, last⟩ := ih first
    unfold Line.receive
    dsimp only
    rw [nothing, none]
    exact ⟨rfl, last⟩

theorem remove [BEq K] (endless : l.Endless) (k : K) : (l.remove k).Endless :=
  ⟨endless.unbounded, endless.lasting⟩

end Line.Endless

/-- A turn after which nothing is lost and nothing can be. -/
structure Turn.Spares (turn : Turn K V A) : Prop where
  silent : ∀ k, .reclaimed k ∉ turn.events
  endless : turn.plain.line.Endless

namespace Plain
variable {p : Plain K V} {now : Nat}

theorem settleSpares (endless : p.line.Endless) (now : Nat) : (p.settle .all now).Spares := by
  obtain ⟨nothing, received⟩ := endless.receive now p.shelf.surplus
  refine ⟨fun k => ?_, received⟩
  simp [settle, lose, nothing]

variable [BEq K]

theorem withdrawSpares (endless : p.line.Endless) (now : Nat) (k : K) : (p.withdraw now k).Spares := by
  unfold withdraw
  cases find Admission.key p.line.waiting k with
  | none => exact ⟨fun _ => List.not_mem_nil, endless⟩
  | some a =>
    simp only [endless.expired, Bool.false_eq_true, if_false]
    exact ⟨fun _ => List.not_mem_nil, endless.remove k⟩

theorem markEndless (endless : p.line.Endless) (k : K) : (p.mark k).line.Endless := by
  rw [(p.markKeeps k).2]
  exact endless

theorem fetchSpares (endless : p.line.Endless) (now : Nat) (k : K) : (p.fetch .all now k).Spares := by
  obtain ⟨silent, taken⟩ := withdrawSpares endless now k
  unfold fetch
  cases p.shelf.find? k with
  | some v => exact ⟨fun _ => List.not_mem_nil, endless⟩
  | none =>
    dsimp only
    cases (p.withdraw now k).answer with
    | none => exact ⟨silent, taken⟩
    | some v =>
      let promoted := (((p.withdraw now k).plain.count .hit 1).count .promotion 1).enter k v
      obtain ⟨quiet, settled⟩ := settleSpares (p := promoted) taken now
      exact ⟨fun j mem => (List.mem_append.mp mem).elim (silent j) (quiet j), settled⟩

theorem storeSpares (endless : p.line.Endless) (now : Nat) (k : K) (v : V) :
    (p.store .all now k v).Spares := by
  obtain ⟨silent, taken⟩ := withdrawSpares endless now k
  unfold store
  cases p.shelf.find? k with
  | some old => exact ⟨fun _ => List.not_mem_nil, endless⟩
  | none =>
    let entered := ((p.withdraw now k).plain.enter k v).count .insert 1
    obtain ⟨quiet, settled⟩ := settleSpares (p := entered) taken now
    exact ⟨fun j mem => (List.mem_append.mp mem).elim (silent j) (quiet j), settled⟩

theorem discardSpares (endless : p.line.Endless) (now : Nat) (k : K) : (p.discard now k).Spares := by
  let removed : Plain K V := { p with shelf := p.shelf.remove k, pins := without id p.pins k }
  obtain ⟨silent, taken⟩ := withdrawSpares (p := removed) endless now k
  exact ⟨silent, taken⟩

theorem holdSpares (endless : p.line.Endless) (now : Nat) (k : K) : (p.hold now k).Spares := by
  obtain ⟨silent, taken⟩ := withdrawSpares endless now k
  unfold hold
  cases p.shelf.find? k with
  | some v => exact ⟨fun _ => List.not_mem_nil, markEndless (p := { p with shelf := p.shelf.pin k }) endless k⟩
  | none =>
    dsimp only
    cases (p.withdraw now k).answer with
    | none => exact ⟨silent, markEndless taken k⟩
    | some v =>
      let promoted := (p.withdraw now k).plain.count .promotion 1
      exact ⟨silent, markEndless (p := { promoted with shelf := promoted.shelf.enter k v true }) taken k⟩

theorem releaseSpares (endless : p.line.Endless) (now : Nat) (k : K) : (p.release .all now k).Spares := by
  let freed : Plain K V := { p with shelf := p.shelf.unpin k, pins := without id p.pins k }
  unfold release
  cases p.shelf.find? k with
  | some v =>
    obtain ⟨silent, settled⟩ := settleSpares (p := freed) endless now
    exact ⟨silent, settled⟩
  | none => exact ⟨fun _ => List.not_mem_nil, endless⟩

omit [BEq K] in
theorem purgeSpares (endless : p.line.Endless) (now : Nat) :
    (p.purge now).Spares ∧ (p.purge now).answer = 0 ∧ (p.purge now).plain.line = p.line := by
  have gone : p.line.waiting.filter (fun a => a.expired p.line.lifetime now) = [] := by
    simp [endless.expired]
  have line : (p.line.purge now).2 = p.line := by
    rw [Line.purge, endless.live]
  have nothing : (p.line.purge now).1 = [] := by
    rw [Line.purge, gone]
    rfl
  unfold purge
  dsimp only
  rw [nothing, line]
  exact ⟨⟨fun _ => List.not_mem_nil, endless⟩, rfl, rfl⟩

theorem silentHeard {events : List (Event K V)} (silent : ∀ k, .reclaimed k ∉ events) (k : K) :
    heard k events = 0 := by
  refine List.countP_eq_zero.mpr (fun event mem => ?_)
  cases event with
  | reclaimed j => exact absurd mem (silent j)
  | evicted j v => exact Bool.false_ne_true

theorem lookupStock (endless : p.line.Endless) (now : Nat) (k : K) :
    p.lookup now k = none ↔ p.stock k = 0 := by
  rw [stockNone, lookup, Option.or_eq_none_iff, Shelf.findEntries, Line.lookup, endless.live,
    Option.map_eq_none_iff, Option.map_eq_none_iff, Keyed.findNone, Keyed.findNone]

theorem lookupLater (endless : p.line.Endless) (now later : Nat) (k : K) :
    p.lookup later k = p.lookup now k := by
  rw [lookup, lookup, Line.lookup, Line.lookup, endless.live, endless.live]

theorem lookupOnly (endless : p.line.Endless) {k : K} {want : Option V}
    (only : ∀ v, p.has now k v → want = some v) (held : p.stock k = 0 → want = none) :
    p.lookup now k = want := by
  cases found : p.lookup now k with
  | some v => exact (only v (lookupHas found)).symm
  | none => exact (held ((lookupStock endless now k).mp found)).symm

variable [EquivBEq K] [Identity K]

theorem Lawful.lookup {turn : Turn K V A} (lawful : p.Lawful turn (fun _ => 0) (fun _ => 0))
    (single : p.Single) (endless : p.line.Endless) (spares : turn.Spares) {k : K}
    (kept : ∀ v, turn.plain.has now k v → p.has now k v) :
    turn.plain.lookup now k = p.lookup now k := by
  refine lookupOnly spares.endless (fun v held => hasLookup single (kept v held)) (fun none => ?_)
  have balance := lawful.balance k
  rw [silentHeard spares.silent, none] at balance
  exact (lookupStock endless now k).mpr balance.symm

theorem storeLookup (sound : p.Sound) (endless : p.line.Endless) (now : Nat) {k : K}
    (valid : Identity.valid k = true) (v : V) (j : K) :
    (p.store .all now k v).plain.lookup now j = if k == j then some v else p.lookup now j := by
  have spares := storeSpares endless now k v
  have balance := (storeLawful sound .all now valid v).balance j
  rw [silentHeard spares.silent, storeAnswer sound.single] at balance
  refine lookupOnly spares.endless (fun w held => ?_) (fun none => ?_)
  · rcases storeHas sound.single .all k v held with ⟨at_j, rfl⟩ | ⟨other, before⟩
    · rw [if_pos at_j]
    · rw [other]
      exact hasLookup sound.single before
  · rw [none] at balance
    cases at_j : k == j with
    | false =>
      have absent : p.stock j = 0 := by simpa [once, at_j] using balance.symm
      exact (lookupStock endless now j).mpr absent
    | true =>
      -- Either an entry was there before, or the put made one.
      have counted : p.stock j = 0 ∧ p.lookup now k ≠ .none := by simpa [once, at_j] using balance.symm
      have absent := (lookupStock endless now k).mpr ((p.stockCongr at_j).trans counted.1)
      exact absurd absent counted.2

theorem discardLookup (sound : p.Sound) (endless : p.line.Endless) (now : Nat) (k j : K) :
    (p.discard now k).plain.lookup now j = if k == j then none else p.lookup now j := by
  have spares := discardSpares endless now k
  have balance := (discardLawful sound now k).balance j
  rw [silentHeard spares.silent] at balance
  refine lookupOnly spares.endless (fun w held => ?_) (fun none => ?_)
  · obtain ⟨other, before⟩ := discardHas k held
    rw [other]
    exact hasLookup sound.single before
  · rw [none] at balance
    cases at_j : k == j with
    | false =>
      have absent : p.stock j = 0 := by simpa [once, at_j] using balance.symm
      exact (lookupStock endless now j).mpr absent
    | true => rfl

end Plain
end TieredCache
