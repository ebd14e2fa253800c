import TieredCache.Proofs.Chronicle

/-! What a session hands out is fresh, and what is gone stays gone. Whatever can be looked up is what
the last put of its key wrote, with no removal and no clearing since; and a key that is not contained
is contained again only after another put, whatever else happens and however much time passes. -/
namespace TieredCache
variable {K V : Type} [BEq K]

/-- The record up to now wrote the value under the key last, and nothing took it back. -/
def LastPut (k : K) (v : V) (past : List (Note K V)) : Prop :=
  ∃ earlier j previous since, past = earlier ++ .put j v previous :: since ∧ (j == k) = true ∧
    ∀ note ∈ since, note.writes k = false

theorem LastPut.extend {k : K} {v : V} {past more : List (Note K V)} (last : LastPut k v past)
    (spared : ∀ note ∈ more, note.writes k = false) : LastPut k v (past ++ more) := by
  obtain ⟨earlier, j, previous, since, rfl, at_k, kept⟩ := last
  refine ⟨earlier, j, previous, since ++ more, by simp, at_k, ?_⟩
  intro note mem
  rcases List.mem_append.mp mem with mem | mem
  · exact kept note mem
  · exact spared note mem

theorem LastPut.latest {j k : K} (v : V) (previous : Option V) (past : List (Note K V))
    (at_k : (j == k) = true) : LastPut k v (past ++ [.put j v previous]) :=
  ⟨past, j, previous, [], rfl, at_k, by simp⟩

theorem heardSpares (k : K) (events : List (Event K V)) :
    ∀ note ∈ events.map (Note.heard : Event K V → Note K V), note.writes k = false := by
  intro note mem
  obtain ⟨event, _, rfl⟩ := List.mem_map.mp mem
  rfl

theorem Segment.fresh {now : Nat} {p q : Plain K V} {note : Note K V} {events : List (Event K V)}
    (segment : Segment now p note events q) {past : List (Note K V)}
    (fresh : ∀ k v, p.has now k v → LastPut k v past) :
    ∀ k v, q.has now k v → LastPut k v (past ++ note :: events.map .heard) := by
  intro k v held
  rw [List.append_cons]
  rcases segment.kept k v held with ⟨j, previous, rfl, at_k⟩ | ⟨spared, before⟩
  · exact (LastPut.latest v previous past at_k).extend (heardSpares k events)
  · have alone : ∀ n ∈ [note], n.writes k = false := by simpa using spared
    exact ((fresh k v before).extend alone).extend (heardSpares k events)

theorem Chronicle.fresh {now last : Nat} {p q : Plain K V} {log past : List (Note K V)}
    (chronicle : Chronicle now p log last q) (fresh : ∀ k v, p.has now k v → LastPut k v past)
    {before after : List (Note K V)} {note : Note K V} {k : K} {v : V}
    (split : log = before ++ note :: after) (told : note.returned = some (k, v)) :
    LastPut k v (past ++ before) := by
  induction chronicle generalizing past before with
  | done now p => simp at split
  | wait time later ih => exact ih (fun k v held => fresh k v (held.waited time)) split
  | @turn now p r first events log last q segment later ih =>
    rcases turnSplit split with ⟨rfl, rfl⟩ | ⟨passed, event, left, rfl, rfl, rfl⟩ | ⟨more, rfl, rest⟩
    · rw [List.append_nil]
      exact fresh k v (Plain.lookupHas (segment.returned k v told))
    · -- A report hands nothing out.
      simp [Note.returned] at told
    · have after := ih (segment.fresh fresh) rest
      simpa using after

theorem Chronicle.latest {now last : Nat} {p q : Plain K V} {log past : List (Note K V)}
    (chronicle : Chronicle now p log last q) (fresh : ∀ k v, p.has now k v → LastPut k v past) :
    ∀ k v, q.has last k v → LastPut k v (past ++ log) := by
  induction chronicle generalizing past with
  | done now p => simpa using fresh
  | wait time later ih => exact ih (fun k v held => fresh k v (held.waited time))
  | turn segment later ih => simpa using ih (segment.fresh fresh)

theorem Chronicle.gone {now last : Nat} {p q : Plain K V} {log : List (Note K V)}
    (chronicle : Chronicle now p log last q) {k : K} (unput : ∀ note ∈ log, note.puts k = false)
    (absent : p.lookup now k = none) : q.lookup last k = none := by
  rw [Plain.lookupNone] at absent ⊢
  induction chronicle with
  | done now p => exact absent
  | wait time later ih => exact ih unput (fun v held => absent v (held.waited time))
  | @turn now p r note events log last q segment later ih =>
    refine ih (fun n mem => unput n (by simp [mem])) (fun v held => ?_)
    rcases segment.kept k v held with ⟨j, previous, rfl, at_k⟩ | ⟨_, before⟩
    · have other := unput (.put j v previous) (by simp)
      rw [show Note.puts k (.put j v previous : Note K V) = (j == k) from rfl, at_k] at other
      exact Bool.noConfusion other
    · exact absent v before

namespace Session
variable [EquivBEq K] [Identity K]

theorem Tracks.containsKey {s : Session K V} {p : Plain K V} (tracks : s.Tracks p) (filter : Filter K V)
    (k : K) : (s.step filter (.call (.containsKey k))).1.1 =
      if Identity.valid k then .flag (p.lookup s.now k).isSome else .refused (.keyless .containsKey) := by
  have answer := (tracks.shows.asked .containsKey k .flag (tracks.shows.holds s.now k).1).answer
  refine answer.trans ?_
  unfold Plain.given
  cases valid : Identity.valid k <;> simp [valid, Plain.answering]

theorem runFresh (filter : Filter K V) {config : Config} {s : Session K V}
    (started : start config = .ok s) :
    (∀ moves before note after k v, s.log filter moves = before ++ note :: after →
      note.returned = some (k, v) → LastPut k v before) ∧
    ∀ before later k, ((s.run filter before).step filter (.call (.containsKey k))).1.1 = .flag false →
      (∀ note ∈ (s.run filter before).log filter later, note.puts k = false) →
      ((s.run filter (before ++ later)).step filter (.call (.containsKey k))).1.1 = .flag false := by
  obtain ⟨tracks, _⟩ := startTracks started
  constructor
  · intro moves before note after k v split told
    have nothing : ∀ j w, (Plain.start config : Plain K V).has s.now j w → LastPut j w [] := by
      rintro j w ⟨e, mem, _⟩
      simp [Plain.live, Plain.start, Shelf.entries, Line.live] at mem
    exact (tracks.chronicle filter moves).fresh nothing split told
  · intro before later k absent unput
    obtain ⟨middle, _⟩ := tracks.run filter before
    obtain ⟨final, _⟩ := middle.run filter later
    rw [middle.containsKey] at absent
    rw [runAppend, final.containsKey]
    cases valid : Identity.valid k with
    | false => simp [valid] at absent
    | true =>
      have none : (Plain.run filter s.now (Plain.start config) before).2.lookup
          (s.run filter before).now k = none := by
        simpa [valid] using absent
      have still := (middle.chronicle filter later).gone unput none
      rw [if_pos rfl, still]
      rfl

theorem runFreshSmall :
    let config : Config := { lru := true, cacheSize := some 1, softSize := some 1, reclaimAfter := some 1 }
    let filter : Filter Nat Nat := Filter.all
    let moves : List (Move Nat Nat) :=
      [.call (.put 1 10), .call (.put 2 20), .call (.get 1), .call (.put 1 11), .wait 1000000]
    let later : List (Move Nat Nat) := [.call (.pin 2), .call (.put 3 30), .call (.get 2), .call .purge]
    let s : Session Nat Nat := ⟨0, .empty true (some 1) (some 1) (some 1000000)⟩
    start config = .ok s ∧
    LastPut 1 10 ([.put 1 10 none, .put 2 20 none, .heard (.evicted 1 10), .read 1 (some 10),
      .heard (.evicted 2 20)] : List (Note Nat Nat)) ∧
    ((s.run filter (moves ++ later)).step filter (.call (.containsKey 2))).1.1 = .flag false := by
  intro config filter moves later s
  have started : start config = .ok s := rfl
  obtain ⟨fresh, gone⟩ := runFresh filter started
  have log : s.log filter moves = [.put 1 10 none, .put 2 20 none, .heard (.evicted 1 10),
    .read 1 (some 10), .heard (.evicted 2 20)] ++ .put 1 11 (some 10) :: [] := by decide
  exact ⟨started, fresh moves _ _ _ 1 10 log rfl, gone moves later 2 (by decide) (by decide)⟩

end Session
end TieredCache
