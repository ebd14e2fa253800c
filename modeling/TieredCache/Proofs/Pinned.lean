import TieredCache.Proofs.Freshness
import TieredCache.Proofs.Ledger
import TieredCache.Proofs.PinSet

/-! A pinned key is safe. While no call ends the pin, nothing is heard of the key, and once it is
cached it stays in the primary tier with the value put last, whatever else is done and however much
time passes. What carries this is that a pinned key neither waits in the line nor stands among the
entries that can be evicted. -/
namespace TieredCache
open Keyed (Apart find without copies)
variable {K V : Type} [BEq K]

def Event.about (k : K) : Event K V → Bool
  | .evicted j _ => j == k
  | .reclaimed j => j == k

def Quiet (k : K) (events : List (Event K V)) : Prop := ∀ event ∈ events, event.about k = false

theorem Quiet.append {k : K} {first second : List (Event K V)} (before : Quiet k first)
    (after : Quiet k second) : Quiet k (first ++ second) := by
  intro event mem
  rcases List.mem_append.mp mem with mem | mem
  · exact before event mem
  · exact after event mem

theorem quietNone (k : K) : Quiet k ([] : List (Event K V)) := fun _ mem => absurd mem List.not_mem_nil

theorem Quiet.heard {k : K} {events : List (Event K V)} (quiet : Quiet k events) : heard k events = 0 := by
  refine List.countP_eq_zero.mpr (fun event mem loss => ?_)
  cases event with
  | evicted j v => exact Bool.false_ne_true loss
  | reclaimed j => exact Bool.false_ne_true ((quiet _ mem).symm.trans loss)

theorem reclaimedQuiet {k : K} {gone : List K} (spared : copies id gone k = 0) :
    Quiet k (gone.map .reclaimed : List (Event K V)) := by
  intro event mem
  obtain ⟨j, lost, rfl⟩ := List.mem_map.mp mem
  exact Keyed.findNone.mp (Keyed.copiesNone.mp spared) j lost

namespace Plain
variable [EquivBEq K] {p : Plain K V} {k : K}

theorem otherKey {j : K} (pinned : p.isPinned k = true) (free : p.isPinned j = false) :
    (j == k) = false := by
  cases same : j == k with
  | false => rfl
  | true =>
    rw [p.pinnedCongr same, pinned] at free
    exact Bool.noConfusion free

variable [Identity K]

theorem Sound.unqueued (sound : p.Sound) (pinned : p.isPinned k = true) : p.line.stock k = 0 := by
  refine Keyed.copiesNone.mpr (Keyed.findNone.mpr (fun a waits => ?_))
  exact otherKey pinned (sound.passing a waits)

theorem Sound.onShelf (sound : p.Sound) (pinned : p.isPinned k = true) :
    (p.shelf.find? k).isSome = (0 < p.stock k) := by
  rw [p.shelf.foundStock, stock, sound.unqueued pinned, Nat.add_zero]

theorem Sound.lookupPinned (sound : p.Sound) (pinned : p.isPinned k = true) (now : Nat) :
    p.lookup now k = p.shelf.find? k := by
  have nobody : find Admission.key (p.line.live now) k = none := by
    refine Keyed.findNone.mpr (fun a mem => ?_)
    exact otherKey pinned (sound.passing a (List.mem_filter.mp mem).1)
  rw [lookup, Line.lookup, nobody]
  exact Option.or_none

theorem settleQuiet (sound : p.Sound) (pinned : p.isPinned k = true) (filter : Filter K V) (now : Nat) :
    Quiet k (p.settle filter now).events := by
  have leaving : ∀ e ∈ p.shelf.surplus, (e.1 == k) = false :=
    fun e victim => otherKey pinned (sound.free e (p.shelf.surplusMem victim))
  have dropped := Line.stockReceive filter now p.shelf.surplus p.line k
  have none : copies Prod.fst p.shelf.surplus k = 0 := Keyed.copiesNone.mpr (Keyed.findNone.mpr leaving)
  rw [sound.unqueued pinned, none] at dropped
  refine Quiet.append ?_ (reclaimedQuiet (by omega))
  intro event mem
  obtain ⟨e, victim, rfl⟩ := List.mem_map.mp mem
  exact leaving e victim

theorem withdrawQuiet (sound : p.Sound) (pinned : p.isPinned k = true) (now : Nat) (j : K) :
    Quiet k (p.withdraw now j).events := by
  unfold withdraw
  cases found : find Admission.key p.line.waiting j with
  | none => exact quietNone k
  | some a =>
    obtain ⟨waits, at_j⟩ := Keyed.findMem found
    have other : (j == k) = false := by
      rw [← BEq.congr_left at_j]
      exact otherKey pinned (sound.passing a waits)
    dsimp only
    split
    · refine reclaimedQuiet ?_
      rw [Keyed.copiesCons, id, other]
      rfl
    · exact quietNone k

theorem arriveQuiet (sound : p.Sound) (pinned : p.isPinned k = true) (filter : Filter K V) (now : Nat)
    {j : K} (valid : Identity.valid j = true) (absent : p.shelf.find? j = none) (v : V) {q : Plain K V}
    (entered : q = (p.withdraw now j).plain.enter j v) (counters : Counters) :
    Quiet k ((p.withdraw now j).events ++ (settle filter now { q with counters := counters }).events) := by
  have left := (p.withdrawStock now j).trans (absentStock absent)
  have arrived := (sound.withdraw now j).enter valid left v
  have still : ((p.withdraw now j).plain.enter j v).isPinned k = true := by
    show (p.withdraw now j).plain.pins.any (· == k) = true
    rw [withdrawPins]
    exact pinned
  rw [← entered] at arrived still
  have counted : Sound { q with counters := counters } :=
    ⟨arrived.single, arrived.free, arrived.fixed, arrived.passing, arrived.within, arrived.shelved,
      arrived.queued, arrived.named⟩
  exact (withdrawQuiet sound pinned now j).append (settleQuiet counted still filter now)

theorem fetchQuiet (sound : p.Sound) (pinned : p.isPinned k = true) (filter : Filter K V) (now : Nat)
    {j : K} (valid : Identity.valid j = true) : Quiet k (p.fetch filter now j).events := by
  have taken := withdrawQuiet sound pinned now j
  unfold fetch
  cases absent : p.shelf.find? j with
  | some v => exact quietNone k
  | none =>
    dsimp only
    cases (p.withdraw now j).answer with
    | none => exact taken
    | some v => exact arriveQuiet sound pinned filter now valid absent v rfl _

theorem storeQuiet (sound : p.Sound) (pinned : p.isPinned k = true) (filter : Filter K V) (now : Nat)
    {j : K} (valid : Identity.valid j = true) (v : V) : Quiet k (p.store filter now j v).events := by
  unfold store
  cases absent : p.shelf.find? j with
  | some old => exact quietNone k
  | none => exact arriveQuiet sound pinned filter now valid absent v rfl _

theorem storeAllQuiet (sound : p.Sound) (pinned : p.isPinned k = true) (filter : Filter K V) (now : Nat)
    {entries : List (K × V)} (valid : ∀ e ∈ entries, Identity.valid e.1 = true) :
    Quiet k (p.storeAll filter now entries).events := by
  induction entries generalizing p with
  | nil => exact quietNone k
  | cons e rest ih =>
    have at_e := valid e (by simp)
    have after := (storeLawful sound filter now at_e e.2).sound
    have still : (p.store filter now e.1 e.2).plain.isPinned k = true := by
      rw [isPinned, storePins]
      exact pinned
    exact (storeQuiet sound pinned filter now at_e e.2).append
      (ih after still (fun d mem => valid d (by simp [mem])))

theorem discardQuiet (sound : p.Sound) (pinned : p.isPinned k = true) (now : Nat) {j : K}
    (other : (j == k) = false) : Quiet k (p.discard now j).events := by
  have still : (without id p.pins j).any (· == k) = true := withoutKept pinned other
  exact withdrawQuiet (sound.drop j) still now j

theorem holdQuiet (sound : p.Sound) (pinned : p.isPinned k = true) (now : Nat) (j : K) :
    Quiet k (p.hold now j).events := by
  have taken := withdrawQuiet sound pinned now j
  unfold hold
  cases p.shelf.find? j with
  | some v => exact quietNone k
  | none =>
    dsimp only
    cases (p.withdraw now j).answer with
    | none => exact taken
    | some v => exact taken

theorem releaseQuiet (sound : p.Sound) (pinned : p.isPinned k = true) (filter : Filter K V) (now : Nat)
    {j : K} (other : (j == k) = false) : Quiet k (p.release filter now j).events := by
  have still : (without id p.pins j).any (· == k) = true := withoutKept pinned other
  unfold release
  cases p.shelf.find? j with
  | some v => exact settleQuiet (sound.unpin j) still filter now
  | none => exact quietNone k

omit [EquivBEq K] in
theorem givenQuiet (p : Plain K V) (op : KeyedOp) (keys : List K) {turn : Turn K V (Reply K V)}
    (quiet : (∀ j ∈ keys, Identity.valid j = true) → Quiet k turn.events) :
    Quiet k (p.given op keys turn).events := by
  unfold given
  split
  · rename_i valid
    exact quiet (List.all_eq_true.mp valid)
  · exact quietNone k

theorem stepQuiet (sound : p.Sound) (pinned : p.isPinned k = true) (filter : Filter K V) (now : Nat)
    {call : Call K V} (kept : call.frees k = false) : Quiet k (p.step filter now call).events := by
  cases call with
  | get j => exact p.givenQuiet .get [j] (fun valid => fetchQuiet sound pinned filter now (valid j (by simp)))
  | put j v =>
    exact p.givenQuiet .put [j] (fun valid => storeQuiet sound pinned filter now (valid j (by simp)) v)
  | putAll entries =>
    refine p.givenQuiet .putAll _ (fun valid => ?_)
    exact storeAllQuiet sound pinned filter now (fun e mem => valid e.1 (List.mem_map_of_mem mem))
  | remove j => exact p.givenQuiet .remove [j] (fun _ => discardQuiet sound pinned now kept)
  | pin j => exact p.givenQuiet .pin [j] (fun _ => holdQuiet sound pinned now j)
  | unpin j => exact p.givenQuiet .unpin [j] (fun _ => releaseQuiet sound pinned filter now kept)
  | isPinned j => exact p.givenQuiet .isPinned [j] (fun _ => quietNone k)
  | containsKey j => exact p.givenQuiet .containsKey [j] (fun _ => quietNone k)
  | peek j => exact p.givenQuiet .peek [j] (fun _ => quietNone k)
  | clear => exact Bool.noConfusion kept
  | setCacheSize n => exact settleQuiet (sound.withCapacity n) pinned filter now
  | setSoftSize n =>
    have dropped := Line.stockFit { p.line with bound := n } k
    have none : Line.stock { p.line with bound := n } k = 0 := sound.unqueued pinned
    exact reclaimedQuiet (by omega)
  | purge =>
    have dropped := p.line.stockPurge now k
    have none := sound.unqueued pinned
    exact reclaimedQuiet (by omega)
  | _ => exact quietNone k

end Plain

theorem Quiet.lost [Identity K] {c : Cache K V} {filter : Filter K V} {now : Nat} {call : Call K V} {k : K}
    (quiet : Quiet k (c.step filter now call).events) : lost k (c.notes filter now call) = 0 := by
  refine List.countP_eq_zero.mpr (fun note mem loss => ?_)
  cases note with
  | heard event =>
    have told : event ∈ (c.step filter now call).events := by
      rw [← Cache.notesHeard]
      exact List.mem_filterMap.mpr ⟨.heard event, mem, rfl⟩
    have spared := List.countP_eq_zero.mp quiet.heard event told
    exact spared loss
  | _ => exact Bool.false_ne_true loss

theorem batchTaken (filter : Filter K V) (now : Nat) (k : K) (entries : List (K × V)) (c : Cache K V) :
    taken k (c.batchNotes filter now entries) = 0 := by
  induction entries generalizing c with
  | nil => rfl
  | cons e rest ih =>
    have others := ih (c.store filter now e.1 e.2).cache
    have quiet := (heardCounts k (c.store filter now e.1 e.2).events).2.1
    unfold Cache.batchNotes Cache.putNotes
    simp only [taken, List.countP_cons, List.countP_append] at others quiet ⊢
    simp [Note.takes, others, quiet]

theorem notesTaken [Identity K] (filter : Filter K V) (now : Nat) (c : Cache K V) {call : Call K V} {k : K}
    (kept : call.frees k = false) : taken k (c.notes filter now call) = 0 := by
  have quiet := (heardCounts k (c.step filter now call).events).2.1
  unfold Cache.notes
  dsimp only
  split
  case h_4 entries _ => exact batchTaken filter now k entries c
  case h_5 j removed _ =>
    simp only [taken, List.countP_cons] at quiet ⊢
    rw [quiet]
    simp [Note.takes, show (j == k) = false from kept]
  all_goals
    simp only [taken, List.countP_cons] at quiet ⊢
    rw [quiet]
    rfl

namespace Session
variable [EquivBEq K] [Identity K] {s : Session K V} {p : Plain K V} {k : K}

/-- One call on a pinned key's watch. -/
theorem Tracks.guards (tracks : s.Tracks p) (pinned : p.isPinned k = true) (filter : Filter K V)
    {call : Call K V} (kept : call.frees k = false) :
    Quiet k (s.cache.step filter s.now call).events ∧
    (p.step filter s.now call).plain.isPinned k = true ∧
    p.stock k ≤ (p.step filter s.now call).plain.stock k := by
  have heard := Plain.stepQuiet tracks.sound pinned filter s.now kept
  have events := (tracks.shows.step tracks.sound filter s.now call).events
  have quiet : Quiet k (s.cache.step filter s.now call).events :=
    fun event mem => heard event (events.perm.mem_iff.mp mem)
  have filled : .emptied ∉ s.cache.notes filter s.now call := by
    refine notesFilled filter s.now s.cache (fun clearing => ?_)
    rw [clearing] at kept
    exact Bool.noConfusion kept
  have balance := (chronicleCall tracks.shows tracks.sound filter s.now call).balance filled k
  rw [notesTaken filter s.now s.cache kept, quiet.lost] at balance
  refine ⟨quiet, ?_, by omega⟩
  rw [Plain.isPinned, Plain.stepPins]
  exact Call.pinnedKept pinned kept

theorem Tracks.guarded (tracks : s.Tracks p) (pinned : p.isPinned k = true) (filter : Filter K V)
    {moves : List (Move K V)} (kept : ∀ call, .call call ∈ moves → call.frees k = false) :
    (∀ told ∈ s.trace filter moves, Quiet k told.2) ∧
    (p.run filter s.now moves).2.isPinned k = true ∧
    p.stock k ≤ (p.run filter s.now moves).2.stock k := by
  induction moves generalizing s p with
  | nil => exact ⟨fun _ mem => absurd mem List.not_mem_nil, pinned, Nat.le_refl _⟩
  | cons move rest ih =>
    have later : ∀ call, .call call ∈ rest → call.frees k = false :=
      fun call mem => kept call (by simp [mem])
    cases move with
    | wait time =>
      obtain ⟨quiet, still, stock⟩ := ih (tracks.waited time) pinned later
      refine ⟨fun told mem => ?_, still, stock⟩
      rcases List.mem_cons.mp mem with rfl | mem
      · exact quietNone k
      · exact quiet told mem
    | call call =>
      obtain ⟨here, remains, more⟩ := tracks.guards pinned filter (kept call (by simp))
      obtain ⟨quiet, still, stock⟩ := ih (tracks.call filter s.now call) remains later
      refine ⟨fun told mem => ?_, still, Nat.le_trans more stock⟩
      rcases List.mem_cons.mp mem with rfl | mem
      · exact here
      · exact quiet told mem

theorem Tracks.pinnedHeld (tracks : s.Tracks p) (pinned : p.isPinned k = true) (now : Nat) :
    (s.cache.holds now k = true ↔ 0 < p.stock k) ∧
    (0 < p.stock k → s.cache.primary.contains k = true ∧ ∃ v, s.cache.glance now k = some v) := by
  obtain ⟨holds, glance⟩ := tracks.shows.holds now k
  have contains := Recency.containsShown tracks.shows.primary k
  have lookup := tracks.sound.lookupPinned pinned now
  have shelved := tracks.sound.onShelf pinned
  rw [holds, contains, glance, lookup, shelved]
  refine ⟨Iff.rfl, fun held => ⟨held, ?_⟩⟩
  exact Option.isSome_iff_exists.mp (shelved ▸ held)

theorem lookupLatest {config : Config} (started : start config = .ok s) (filter : Filter K V)
    (moves : List (Move K V)) {v : V}
    (found : (s.run filter moves).cache.glance (s.run filter moves).now k = some v) :
    LastPut k v (s.log filter moves) := by
  obtain ⟨tracks, _⟩ := startTracks started
  obtain ⟨final, _⟩ := tracks.run filter moves
  have nothing : ∀ j w, (Plain.start config : Plain K V).has s.now j w → LastPut j w [] := by
    rintro j w ⟨e, mem, _⟩
    simp [Plain.live, Plain.start, Shelf.entries, Line.live] at mem
  rw [(final.shows.holds _ k).2] at found
  exact (tracks.chronicle filter moves).latest nothing k v (Plain.lookupHas found)

theorem runPinned (filter : Filter K V) {config : Config} (started : start config = .ok s)
    (before later : List (Move K V)) (k : K) (pinned : (s.run filter before).cache.pins.contains k = true)
    (kept : ∀ call, .call call ∈ later → call.frees k = false) :
    let held := s.run filter before
    let ended := s.run filter (before ++ later)
    ended.cache.pins.contains k = true ∧
    (ended.step filter (.call (.isPinned k))).1.1 =
      (if Identity.valid k then .flag true else .refused (.keyless .isPinned)) ∧
    (∀ told ∈ held.trace filter later, ∀ event ∈ told.2, event.about k = false) ∧
    (held.cache.holds held.now k = true → ended.cache.primary.contains k = true ∧
      ∃ v, ended.cache.glance ended.now k = some v ∧ LastPut k v (s.log filter (before ++ later))) := by
  intro held ended
  obtain ⟨tracks, _⟩ := startTracks started
  obtain ⟨middle, _⟩ := tracks.run filter before
  rw [middle.shows.pinned] at pinned
  obtain ⟨quiet, still, stock⟩ := middle.guarded pinned filter kept
  have final : ended.Tracks _ := runAppend filter s before later ▸ (middle.run filter later).1
  have remains := (final.shows.pinned k).trans still
  refine ⟨remains, ?_, quiet, fun holds => ?_⟩
  · have answer := (final.shows.asked .isPinned k .flag remains).answer
    refine answer.trans ?_
    unfold Plain.given
    cases valid : Identity.valid k <;> simp [valid, Plain.answering]
  · have cached := ((middle.pinnedHeld pinned held.now).1).mp holds
    obtain ⟨contains, v, glance⟩ := (final.pinnedHeld still ended.now).2 (Nat.lt_of_lt_of_le cached stock)
    exact ⟨contains, v, glance, lookupLatest started filter (before ++ later) glance⟩

/- The pin comes first, the put brings the key in and a later one overwrites it; room for others is
taken away altogether, and what stays behind them expires. -/
theorem runPinnedSmall :
    let config : Config := { cacheSize := some 1, softSize := some 1, reclaimAfter := some 1 }
    let filter : Filter Nat Nat := Filter.all
    let before : List (Move Nat Nat) := [.call (.pin 1), .call (.put 1 10)]
    let later : List (Move Nat Nat) :=
      [.call (.putAll [(2, 20), (3, 30), (4, 40)]), .call (.setCacheSize (some 0)), .call (.put 1 11),
        .wait 1000000, .call .purge, .call (.setSoftSize (some 0)), .call (.unpin 2), .call (.remove 3)]
    let s : Session Nat Nat := ⟨0, .empty false (some 1) (some 1) (some 1000000)⟩
    let held := s.run filter before
    let ended := s.run filter (before ++ later)
    (start config = .ok s ∧ held.cache.pins.contains 1 = true ∧ held.cache.holds held.now 1 = true ∧
      ∀ call, .call call ∈ later → call.frees 1 = false) ∧
    ended.cache.pins.contains 1 = true ∧
    (ended.step filter (.call (.isPinned 1))).1.1 = .flag true ∧
    (∀ told ∈ held.trace filter later, ∀ event ∈ told.2, event.about 1 = false) ∧
    ended.cache.primary.contains 1 = true ∧
    ∃ v, ended.cache.glance ended.now 1 = some v ∧ LastPut 1 v (s.log filter (before ++ later)) := by
  intro config filter before later s held ended
  have started : start config = .ok s := rfl
  have pinned : held.cache.pins.contains 1 = true := by decide
  have cached : held.cache.holds held.now 1 = true := by decide
  have kept : ∀ call, .call call ∈ later → call.frees 1 = false := by simp [later, Call.frees]
  obtain ⟨remains, answer, quiet, stays⟩ := runPinned filter started before later 1 pinned kept
  exact ⟨⟨started, pinned, cached, kept⟩, remains, answer, quiet, stays cached⟩

end Session
end TieredCache
