import TieredCache.Proofs.Chronicle

/-! The ledger of a key. Counted since the last time everything was emptied, the entries that puts
created less those that removals took and those reported lost are the one entry held, or none; and a
loss is reported only while an entry is out that neither was taken nor reported before. -/
namespace TieredCache
open Keyed (Apart find without copies)
variable {K V : Type} [BEq K]

def created (k : K) (log : List (Note K V)) : Nat := log.countP (Note.creates k)

def taken (k : K) (log : List (Note K V)) : Nat := log.countP (Note.takes k)

def lost (k : K) (log : List (Note K V)) : Nat := log.countP (Note.loses k)

def Cache.holdsEither (c : Cache K V) (k : K) : Bool :=
  c.primary.contains k || c.overflow.held.contains k

def Call.stores (k : K) : Call K V → Bool
  | .put j _ => j == k
  | .putAll entries => entries.any (fun e => e.1 == k)
  | _ => false

theorem heardCounts (k : K) (events : List (Event K V)) :
    created k (events.map .heard) = 0 ∧ taken k (events.map .heard) = 0 ∧
    lost k (events.map .heard) = heard k events := by
  refine ⟨?_, ?_, ?_⟩
  · simp [created, Note.creates]
  · simp [taken, Note.takes]
  · simp [lost, heard, List.countP_map, Function.comp_def, Note.loses]

theorem silentLost {k : K} {note : Note K V} (silent : note.event? = none) : note.loses k = false := by
  cases note with
  | heard event => simp [Note.event?] at silent
  | _ => rfl

theorem Chronicle.balance {now last : Nat} {p q : Plain K V} {log : List (Note K V)}
    (chronicle : Chronicle now p log last q) (filled : .emptied ∉ log) (k : K) :
    q.stock k + taken k log + lost k log = p.stock k + created k log := by
  induction chronicle with
  | done now p => rfl
  | wait time later ih => exact ih filled
  | @turn now p r note events log last q segment later ih =>
    have here := segment.balance (fun same => filled (by simp [same])) k
    have rest := ih (fun mem => filled (by simp [mem]))
    -- A note reports no loss itself: the losses of a turn are all among what is heard.
    have quiet := silentLost (k := k) segment.silent
    obtain ⟨no_created, no_taken, all_lost⟩ := heardCounts k events
    simp only [created, taken, lost] at no_created no_taken all_lost rest ⊢
    simp only [List.countP_cons, List.countP_append, quiet, Bool.false_eq_true, if_false]
    omega

theorem Chronicle.covered {now last : Nat} {p q : Plain K V} {log : List (Note K V)}
    (chronicle : Chronicle now p log last q) (filled : .emptied ∉ log) {k : K}
    {earlier later : List (Note K V)} {event : Event K V}
    (split : log = earlier ++ .heard event :: later) (loss : event.loses k = true) :
    taken k earlier + lost k earlier < p.stock k + created k earlier := by
  induction chronicle generalizing earlier with
  | done now p => simp at split
  | wait time rest ih => exact ih filled split
  | @turn now p r note events log last q segment rest ih =>
    have here := segment.balance (fun same => filled (by simp [same])) k
    have quiet := silentLost (k := k) segment.silent
    obtain ⟨no_created, no_taken, all_lost⟩ := heardCounts k events
    rcases turnSplit split with ⟨_, same⟩ | ⟨passed, other, left, rfl, same, rfl⟩ | ⟨more, rfl, rest_split⟩
    · rw [← same] at quiet
      exact absurd loss (by simpa [Note.loses] using quiet)
    · -- What was heard before it in the same turn left room for this report.
      have counted : other.loses k = true := Note.heard.inj same ▸ loss
      obtain ⟨uncreated, untaken, all⟩ := heardCounts k passed
      have heard_now : heard k (passed ++ other :: left) = heard k passed + heard k left + 1 := by
        simp only [heard, List.countP_append, List.countP_cons, counted, if_true]
        omega
      simp only [created, taken, lost] at uncreated untaken all ⊢
      simp only [List.countP_cons, quiet, Bool.false_eq_true, if_false]
      omega
    · have after := ih (fun mem => filled (by simp [mem])) rest_split
      simp only [created, taken, lost] at no_created no_taken all_lost after ⊢
      simp only [List.countP_cons, List.countP_append, quiet, Bool.false_eq_true, if_false]
      omega

theorem batchFilled (filter : Filter K V) (now : Nat) (entries : List (K × V)) (c : Cache K V) :
    .emptied ∉ c.batchNotes filter now entries := by
  induction entries generalizing c with
  | nil => simp [Cache.batchNotes]
  | cons e rest ih =>
    have others := ih (c.store filter now e.1 e.2).cache
    unfold Cache.batchNotes Cache.putNotes
    simp [others]

theorem batchCreated (filter : Filter K V) (now : Nat) {k : K} {entries : List (K × V)} (c : Cache K V)
    (other : entries.any (fun e => e.1 == k) = false) : created k (c.batchNotes filter now entries) = 0 := by
  induction entries generalizing c with
  | nil => rfl
  | cons e rest ih =>
    simp only [List.any_cons, Bool.or_eq_false_iff] at other
    have others := ih (c.store filter now e.1 e.2).cache other.2
    have quiet := (heardCounts k (c.store filter now e.1 e.2).events).1
    unfold Cache.batchNotes Cache.putNotes
    simp only [created, List.countP_cons, List.countP_append] at others quiet ⊢
    simp [Note.creates, other.1, others, quiet]

variable [Identity K]

theorem notesFilled (filter : Filter K V) (now : Nat) (c : Cache K V) {call : Call K V}
    (other : call ≠ .clear) : .emptied ∉ c.notes filter now call := by
  unfold Cache.notes
  dsimp only
  split
  case h_4 entries _ => exact batchFilled filter now entries c
  case h_6 => exact absurd rfl other
  all_goals simp

theorem notesCreate (filter : Filter K V) (now : Nat) (c : Cache K V) {call : Call K V} {k : K}
    (other : call.stores k = false) : created k (c.notes filter now call) = 0 := by
  have quiet := (heardCounts k (c.step filter now call).events).1
  unfold Cache.notes
  dsimp only
  split
  case h_4 entries _ => exact batchCreated filter now c other
  case h_3 j v previous _ =>
    simp only [created, List.countP_cons] at quiet ⊢
    rw [quiet]
    simp [Note.creates, show (j == k) = false from other]
  all_goals
    simp only [created, List.countP_cons] at quiet ⊢
    rw [quiet]
    rfl

theorem logFilled (filter : Filter K V) (s : Session K V) {moves : List (Move K V)}
    (filled : ∀ move ∈ moves, move ≠ .call .clear) : .emptied ∉ s.log filter moves := by
  induction moves generalizing s with
  | nil => simp [Session.log]
  | cons move rest ih =>
    have later := fun s => ih s (fun next mem => filled next (by simp [mem]))
    cases move with
    | wait time => exact later _
    | call call =>
      have here := notesFilled filter s.now s.cache (show call ≠ .clear from
        fun same => filled (.call call) (by simp) (congrArg Move.call same))
      simp only [Session.log, List.mem_append, not_or]
      exact ⟨here, later _⟩

variable [EquivBEq K]

omit [Identity K] in
theorem Cache.Shows.heldStock {c : Cache K V} {p : Plain K V} (shows : c.Shows p) (single : p.Single)
    (k : K) : p.stock k = if c.holdsEither k then 1 else 0 := by
  have few := single k
  have primary := Recency.containsShown shows.primary k
  have overflow := Overflow.containsShown shows.overflow k
  have shelf := p.shelf.foundStock k
  have line : (find Admission.key p.line.waiting k).isSome = (0 < p.line.stock k) := by
    have none : p.line.stock k = 0 ↔ find Admission.key p.line.waiting k = none := Keyed.copiesNone
    rw [Nat.pos_iff_ne_zero, Ne, none]
    cases find Admission.key p.line.waiting k <;> simp
  have either : c.holdsEither k = true ↔ 0 < p.stock k := by
    rw [Cache.holdsEither, primary, overflow, Bool.or_eq_true, shelf, line, Plain.stock]
    omega
  split
  · rename_i holds
    have some := either.mp holds
    omega
  · rename_i holds
    have none := mt either.mpr holds
    omega

namespace Session

theorem openedEmpty (filter : Filter K V) {config : Config} {s : Session K V}
    (started : start config = .ok s) {before : List (Move K V)}
    (opening : before = [] ∨ ∃ earlier, before = earlier ++ [.call .clear]) :
    ∃ p : Plain K V, (s.run filter before).Tracks p ∧ ∀ k, p.stock k = 0 := by
  obtain ⟨tracks, _⟩ := startTracks started
  rcases opening with rfl | ⟨earlier, rfl⟩
  · exact ⟨_, tracks, fun _ => rfl⟩
  · obtain ⟨ran, _⟩ := tracks.run filter earlier
    have cleared := ran.call filter (s.run filter earlier).now .clear
    rw [runAppend]
    exact ⟨_, cleared, fun _ => rfl⟩

theorem Tracks.reported {s : Session K V} {p : Plain K V} (tracks : s.Tracks p) (filter : Filter K V)
    (now : Nat) {call : Call K V} {event : Event K V} {k : K}
    (mem : event ∈ (s.cache.step filter now call).events) (loss : event.loses k = true) :
    s.cache.holdsEither k = true ∨ call.stores k = true := by
  have held := tracks.shows.heldStock tracks.sound.single k
  by_cases clearing : call = .clear
  · rw [clearing] at mem
    exact absurd mem (List.not_mem_nil)
  · have noted := chronicleCall tracks.shows tracks.sound filter now call
    have balance := noted.balance (notesFilled filter now s.cache clearing) k
    have reported : 0 < lost k (s.cache.notes filter now call) := by
      rw [← Cache.notesHeard] at mem
      obtain ⟨note, also, told⟩ := List.mem_filterMap.mp mem
      refine List.countP_pos_iff.mpr ⟨note, also, ?_⟩
      cases note with
      | heard other => exact Option.some.inj told ▸ loss
      | _ => simp [Note.event?] at told
    cases stores : call.stores k with
    | true => exact .inr rfl
    | false =>
      -- Nothing was created meanwhile, so what was lost was there before.
      have none := notesCreate filter now s.cache stores
      left
      split at held
      · assumption
      · omega

theorem runLedger (filter : Filter K V) {config : Config} {s : Session K V}
    (started : start config = .ok s) (before moves : List (Move K V))
    (opening : before = [] ∨ ∃ earlier, before = earlier ++ [.call .clear])
    (filled : ∀ move ∈ moves, move ≠ .call .clear) (k : K) :
    let opened := s.run filter before
    let ended := opened.run filter moves
    let log := opened.log filter moves
    (created k log : Int) - taken k log - lost k log = (if ended.cache.holdsEither k then 1 else 0) ∧
    (∀ earlier event later, log = earlier ++ .heard event :: later → event.loses k = true →
      taken k earlier + lost k earlier < created k earlier) ∧
    ∀ now call, ∀ event ∈ (ended.cache.step filter now call).events, event.loses k = true →
      ended.cache.holdsEither k = true ∨ call.stores k = true := by
  intro opened ended log
  obtain ⟨p, tracks, empty⟩ := openedEmpty filter started opening
  have chronicle : Chronicle opened.now p log ended.now _ := tracks.chronicle filter moves
  have open_log : .emptied ∉ log := logFilled filter opened filled
  have final : ended.Tracks _ := (tracks.run filter moves).1
  refine ⟨?_, ?_, fun now call event mem loss => final.reported filter now mem loss⟩
  · have balance := chronicle.balance open_log k
    have held := final.shows.heldStock final.sound.single k
    rw [empty] at balance
    split at held
    · rename_i holds
      rw [if_pos holds]
      omega
    · rename_i holds
      rw [if_neg holds]
      omega
  · intro earlier event later split loss
    have covered := chronicle.covered open_log split loss
    rwa [empty, Nat.zero_add] at covered

/- A filter that takes no zero and a soft bound of one: a rejected entry, a displaced one, an expired
one that a put meets, and the one that is left. -/
theorem runLedgerSmall :
    let config : Config := { cacheSize := some 1, softSize := some 1, reclaimAfter := some 1 }
    let filter : Filter Nat Nat := fun _ v => v != 0
    let before : List (Move Nat Nat) := [.call (.put 1 10), .call .clear]
    let moves : List (Move Nat Nat) :=
      [.call (.putAll [(1, 0), (2, 20), (3, 30), (4, 40)]), .call (.remove 4), .wait 1000000,
        .call (.put 3 31), .call (.put 4 41)]
    let s : Session Nat Nat := ⟨0, .empty false (some 1) (some 1) (some 1000000)⟩
    let opened := s.run filter before
    let ended := opened.run filter moves
    let log := opened.log filter moves
    (start config = .ok s ∧ (∀ move ∈ moves, move ≠ .call .clear) ∧ created 3 log = 2 ∧ lost 3 log = 1) ∧
    (created 3 log : Int) - taken 3 log - lost 3 log = (if ended.cache.holdsEither 3 then 1 else 0) ∧
    (∀ earlier event later, log = earlier ++ .heard event :: later → event.loses 3 = true →
      taken 3 earlier + lost 3 earlier < created 3 earlier) ∧
    ∀ now call, ∀ event ∈ (ended.cache.step filter now call).events, event.loses 3 = true →
      ended.cache.holdsEither 3 = true ∨ call.stores 3 = true := by
  intro config filter before moves s opened ended log
  have started : start config = .ok s := rfl
  have filled : ∀ move ∈ moves, move ≠ .call .clear := by decide
  exact ⟨⟨started, filled, by decide, by decide⟩,
    runLedger filter started before moves (.inr ⟨[.call (.put 1 10)], rfl⟩) filled 3⟩

end Session
end TieredCache
