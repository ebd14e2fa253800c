import TieredCache.Proofs.Nested
import TieredCache.Proofs.Observers
import TieredCache.Proofs.Respelled

/-! What the primary tier of a given size holds, from the history alone. While nothing is pinned, removed
or resized, only two things are done to it: an entry of its own is used, or one enters. In order of use it
holds the keys used last, the latest first and each once; in order of entry, those that entered last. What
becomes of an evicted entry, whether it waits, expires or comes back, has no part in it. -/
namespace TieredCache
open Keyed (Apart find without)
variable {K V : Type} [BEq K]

namespace Keyed

theorem withoutTake [EquivBEq K] {keys : List K} (apart : Apart id keys) (k : K) (n : Nat) :
    (without id (keys.take (n + 1)) k).take n = (without id keys k).take n := by
  induction keys generalizing n with
  | nil => rfl
  | cons j rest ih =>
    obtain ⟨others, apart⟩ := apartCons.mp apart
    simp only [List.take_succ_cons, withoutCons]
    cases at_k : id j == k with
    | true =>
      -- There is no other entry of the key, so nothing else goes.
      have none : ∀ i ∈ rest, (id i == k) = false := fun i mem => BEq.congr_right at_k ▸ others i mem
      have fewer : ∀ i ∈ rest.take n, (id i == k) = false := fun i mem => none i (List.mem_of_mem_take mem)
      simp [withoutNone none, withoutNone fewer, List.take_take]
    | false =>
      cases n with
      | zero => rfl
      | succ n => simpa using ih apart n

theorem distinctFilter [EquivBEq K] (k : K) (keys : List K) :
    (without id keys k).eraseDups = without id keys.eraseDups k := by
  match keys with
  | [] => rfl
  | j :: rest =>
    have later : _ = without id (rest.filter (fun i => !(i == j))).eraseDups k :=
      distinctFilter k (rest.filter (fun i => !(i == j)))
    have order : (without id rest k).filter (fun i => !(i == j)) =
        without id (rest.filter (fun i => !(i == j))) k := List.filter_comm ..
    rw [List.eraseDups_cons, withoutCons, withoutCons, ← later]
    cases at_k : id j == k with
    | false => rw [if_neg Bool.false_ne_true, if_neg Bool.false_ne_true, List.eraseDups_cons, order]
    | true =>
      -- Those taken out for the sake of `k` are those already taken out for that of `j`.
      have same : without id (rest.filter (fun i => !(i == j))) k = without id rest k := by
        unfold without
        rw [List.filter_filter]
        refine List.filter_congr (fun i _ => ?_)
        rw [show (i == j) = (id i == k) from BEq.congr_right at_k, Bool.and_self]
      rw [if_pos rfl, if_pos rfl, same]
termination_by keys.length
decreasing_by exact Nat.lt_succ_of_le (List.length_filter_le _ _)

theorem distinctCons [EquivBEq K] (k : K) (keys : List K) :
    (k :: keys).eraseDups = k :: without id keys.eraseDups k := by
  rw [List.eraseDups_cons, ← distinctFilter]
  rfl

theorem distinctApart [EquivBEq K] (keys : List K) : Apart id keys.eraseDups := by
  induction keys with
  | nil => exact List.Pairwise.nil
  | cons k rest ih =>
    rw [distinctCons]
    exact apartCons.mpr ⟨fun j mem => (withoutMem.mp mem).2, apartWithout ih k⟩

end Keyed

namespace Shelf
variable {s t : Shelf K V}

/-- The second shelf comes of the first by uses alone: the keys used, and of these the keys that entered,
are listed in order. -/
inductive Uses (s : Shelf K V) : List K → List K → Shelf K V → Prop where
  | none : Uses s [] [] s
  | touched {used entered t} (earlier : Uses s used entered t) (k : K) (held : (t.find? k).isSome) :
      Uses s (used ++ [k]) entered (t.touch k)
  | replaced {used entered t} (earlier : Uses s used entered t) (k : K) (v : V) (held : (t.find? k).isSome) :
      Uses s (used ++ [k]) entered (t.put k v)
  | entered {used entered t} (earlier : Uses s used entered t) (k : K) (v : V) (absent : t.find? k = .none) :
      Uses s (used ++ [k]) (entered ++ [k]) (t.put k v)

theorem putHeld {k : K} (held : (s.find? k).isSome) (v : V) : s.put k v = (s.replace k v).touch k := by
  obtain ⟨w, found⟩ := Option.isSome_iff_exists.mp held
  unfold put
  rw [found]

theorem putAbsent {k : K} (absent : s.find? k = none) (v : V) : s.put k v = (s.enter k v false).fitted := by
  unfold put
  rw [absent]

namespace Uses
variable {used entered : List K} {most : Nat}

theorem still (uses : s.Uses used entered t) : s.Uses (used ++ []) (entered ++ []) t := by
  rw [List.append_nil, List.append_nil]
  exact uses

theorem bare (uses : s.Uses used entered t) (bare : s.pinned = []) : t.pinned = [] := by
  have touch (u : Shelf K V) (k : K) : (u.touch k).pinned = u.pinned := by
    unfold Shelf.touch
    split <;> rfl
  induction uses with
  | none => exact bare
  | touched earlier k held ih => exact (touch _ k).trans ih
  | replaced earlier k v held ih =>
    rw [putHeld held, touch]
    exact congrArg (revalued k v) ih
  | entered earlier k v absent ih =>
    rw [putAbsent absent]
    exact (fittedMem _).1.trans ih

/- In order of entry a use moves nothing, and what enters stands before all that entered earlier. -/
theorem queued (uses : s.Uses used entered t) (empty : s.recent = []) (byUse : s.byUse = false)
    (capped : s.capacity = some most) : t.byUse = false ∧ t.capacity = some most ∧
      t.recent.map Prod.fst = entered.reverse.take most := by
  have still (u : Shelf K V) (k : K) (byUse : u.byUse = false) : u.touch k = u := by
    unfold Shelf.touch
    rw [byUse]
    rfl
  induction uses with
  | none => exact ⟨byUse, capped, by rw [empty]; simp⟩
  | touched earlier k held ih => exact (still _ k ih.1).symm ▸ ih
  | replaced earlier k v held ih =>
    obtain ⟨byUse, capped, keys⟩ := ih
    rw [putHeld held, still (replace _ k v) k byUse]
    exact ⟨byUse, capped, (keysRevalued k v _).trans keys⟩
  | entered earlier k v absent ih =>
    obtain ⟨byUse, capped, keys⟩ := ih
    rw [putAbsent absent]
    unfold Shelf.fitted Shelf.enter
    simp only [Bool.false_eq_true, if_false, capped]
    refine ⟨byUse, trivial, ?_⟩
    rw [List.map_take, List.map_cons, keys, List.reverse_append]
    cases most with
    | zero => rfl
    | succ n => simp [List.take_take]

end Uses

variable [EquivBEq K]

theorem Ordered.touchForm (ordered : s.Ordered) {k : K} (held : (s.find? k).isSome) : ∃ e, (e.1 == k) = true ∧
    s.touch k = Shelf.fitted { s with recent := e :: without Prod.fst s.recent k } := by
  have fits := (ordered.touch k).fits
  rw [findBare ordered.bare, Option.isSome_map] at held
  obtain ⟨e, found⟩ := Option.isSome_iff_exists.mp held
  rw [ordered.touched, found] at fits
  refine ⟨e, (Keyed.findMem found).2, ?_⟩
  rw [ordered.touched, found]
  exact (fitsSurplus fits).1.symm

/- An entry brought to the front comes before the others in the order they had; if it was not among those
that fit, the last of them goes. -/
theorem frontRanked {u : Shelf K V} {k : K} {e : K × V} {used : List K} {most : Nat}
    (at_k : (e.1 == k) = true) (form : u = Shelf.fitted { t with recent := e :: without Prod.fst t.recent k })
    (capped : t.capacity = some most)
    (ranked : List.Forall₂ SameKey (t.recent.map Prod.fst) (used.reverse.eraseDups.take most)) :
    u.capacity = some most ∧
    List.Forall₂ SameKey (u.recent.map Prod.fst) ((used ++ [k]).reverse.eraseDups.take most) := by
  have others : List.Forall₂ SameKey ((without Prod.fst t.recent k).map Prod.fst)
      (without id (used.reverse.eraseDups.take most) k) := by
    have keys : without id (t.recent.map Prod.fst) k = (without Prod.fst t.recent k).map Prod.fst :=
      Keyed.withoutMapped id Prod.fst t.recent k
    rw [← keys]
    exact Keyed.withoutAlong ranked (fun _ _ => id) (BEq.refl k)
  obtain rfl := form
  unfold Shelf.fitted
  simp only [capped]
  refine ⟨trivial, ?_⟩
  rw [List.map_take, List.map_cons, List.reverse_append, List.reverse_singleton, List.singleton_append,
    Keyed.distinctCons]
  cases most with
  | zero => exact .nil
  | succ n =>
    refine .cons at_k ?_
    rw [← Keyed.withoutTake (Keyed.distinctApart _)]
    exact List.forall₂_take n others

theorem Uses.ranked {used entered : List K} {most : Nat} (uses : s.Uses used entered t) (ordered : s.Ordered)
    (empty : s.recent = []) (capped : s.capacity = some most) : t.Ordered ∧ t.capacity = some most ∧
      List.Forall₂ SameKey (t.recent.map Prod.fst) (used.reverse.eraseDups.take most) := by
  induction uses with
  | none => exact ⟨ordered, capped, by rw [empty]; simp⟩
  | touched earlier k held ih =>
    obtain ⟨ordered, capped, ranked⟩ := ih
    obtain ⟨e, at_k, form⟩ := ordered.touchForm held
    exact ⟨ordered.touch k, frontRanked at_k form capped ranked⟩
  | replaced earlier k v held ih =>
    obtain ⟨ordered, capped, ranked⟩ := ih
    obtain ⟨j, at_k, form⟩ := ordered.putForm k v
    exact ⟨ordered.put k v, frontRanked at_k form capped ranked⟩
  | entered earlier k v absent ih =>
    obtain ⟨ordered, capped, ranked⟩ := ih
    obtain ⟨j, at_k, form⟩ := ordered.putForm k v
    exact ⟨ordered.put k v, frontRanked at_k form capped ranked⟩

end Shelf

/-- The call pins nothing, takes nothing out of the primary tier and does not resize it. -/
def Call.easy : Call K V → Bool
  | .pin _ | .unpin _ | .remove _ | .clear | .setCacheSize _ => false
  | _ => true

/-- The keys that a call uses, in order: a put uses its key, a get only if it found something. -/
def Call.uses : Call K V → Reply K V → List K
  | .get k, .value (some _) => [k]
  | .put k _, .value _ => [k]
  | .putAll entries, .done => entries.map Prod.fst
  | _, _ => []

namespace Cache

def newcomer (c : Cache K V) (k : K) : List K := if c.primary.contains k then [] else [k]

def newcomers (filter : Filter K V) (now : Nat) (c : Cache K V) : List (K × V) → List K
  | [] => []
  | (k, v) :: rest => c.newcomer k ++ (c.store filter now k v).cache.newcomers filter now rest

/-- The keys that enter the primary tier, in order: those a call uses and does not find there. -/
def entering (filter : Filter K V) (now : Nat) (c : Cache K V) : Call K V → Reply K V → List K
  | .get k, .value (some _) => c.newcomer k
  | .put k _, .value _ => c.newcomer k
  | .putAll entries, .done => c.newcomers filter now entries
  | _, _ => []

end Cache

namespace Plain
variable {p : Plain K V}

theorem enterFree (free : p.pins = []) (k : K) (v : V) :
    p.enter k v = { p with shelf := p.shelf.enter k v false } := by
  unfold Plain.enter isPinned
  rw [free]
  rfl

theorem storeShelf (free : p.pins = []) (filter : Filter K V) (now : Nat) (k : K) (v : V) :
    (p.store filter now k v).plain.shelf = p.shelf.put k v := by
  obtain ⟨shelf, pins, _⟩ := p.withdrawKeeps now k
  unfold Plain.store Shelf.put
  cases p.shelf.find? k with
  | some old => rfl
  | none =>
    dsimp only
    rw [enterFree (pins.trans free)]
    show (Shelf.enter _ k v false).fitted = _
    rw [shelf]

end Plain

section used
variable [EquivBEq K] {s : Shelf K V} {p : Plain K V} {c : Cache K V} {used entered : List K}

theorem newcomerHeld (shows : c.Shows p) {k : K} (held : (p.shelf.find? k).isSome) : c.newcomer k = [] := by
  unfold Cache.newcomer
  rw [Recency.containsShown shows.primary, held]
  rfl

theorem newcomerAbsent (shows : c.Shows p) {k : K} (absent : p.shelf.find? k = none) :
    c.newcomer k = [k] := by
  unfold Cache.newcomer
  rw [Recency.containsShown shows.primary, absent]
  rfl

theorem usesFetch (uses : s.Uses used entered p.shelf) (shows : c.Shows p) (free : p.pins = [])
    (filter : Filter K V) (now : Nat) (k : K) :
    s.Uses (used ++ (Call.get k).uses (.value (p.fetch filter now k).answer : Reply K V))
      (entered ++ c.entering filter now (.get k) (.value (p.fetch filter now k).answer))
      (p.fetch filter now k).plain.shelf := by
  obtain ⟨shelf, pins, _⟩ := p.withdrawKeeps now k
  unfold Plain.fetch
  cases found : p.shelf.find? k with
  | some v =>
    have held : (p.shelf.find? k).isSome := by rw [found]; rfl
    show s.Uses (used ++ [k]) (entered ++ c.newcomer k) (p.shelf.touch k)
    rw [newcomerHeld shows held, List.append_nil]
    exact uses.touched k held
  | none =>
    dsimp only
    cases (p.withdraw now k).answer with
    | none =>
      rw [← shelf] at uses
      exact uses.still
    | some v =>
      let promoted := ((p.withdraw now k).plain.count .hit 1).count .promotion 1
      have clear : promoted.pins = [] := pins.trans free
      show s.Uses (used ++ [k]) (entered ++ c.newcomer k) (promoted.enter k v).shelf.fitted
      have shown : (promoted.enter k v).shelf.fitted = p.shelf.put k v := by
        rw [Plain.enterFree clear, Shelf.putAbsent found, ← shelf]
        rfl
      rw [newcomerAbsent shows found, shown]
      exact uses.entered k v found

theorem usesStore (uses : s.Uses used entered p.shelf) (shows : c.Shows p) (free : p.pins = [])
    (filter : Filter K V) (now : Nat) (k : K) (v : V) :
    s.Uses (used ++ [k]) (entered ++ c.newcomer k) (p.store filter now k v).plain.shelf := by
  rw [Plain.storeShelf free]
  cases found : p.shelf.find? k with
  | some old =>
    have held : (p.shelf.find? k).isSome := by rw [found]; rfl
    rw [newcomerHeld shows held, List.append_nil]
    exact uses.replaced k v held
  | none =>
    rw [newcomerAbsent shows found]
    exact uses.entered k v found

variable [Identity K]

theorem usesStoreAll (uses : s.Uses used entered p.shelf) (shows : c.Shows p) (sound : p.Sound)
    (free : p.pins = []) (filter : Filter K V) (now : Nat) {entries : List (K × V)}
    (valid : ∀ e ∈ entries, Identity.valid e.1 = true) :
    s.Uses (used ++ entries.map Prod.fst) (entered ++ c.newcomers filter now entries)
      (p.storeAll filter now entries).plain.shelf := by
  induction entries generalizing used entered c p with
  | nil => exact uses.still
  | cons e rest ih =>
    obtain ⟨k, v⟩ := e
    have first := usesStore uses shows free filter now k v
    have shown := (shows.store sound filter now (valid (k, v) (by simp)) v).shows
    have kept := (Plain.storeLawful sound filter now (valid (k, v) (by simp)) v).sound
    have pins := (p.storePins filter now k v).trans free
    have later := ih first shown kept pins (fun d mem => valid d (by simp [mem]))
    simp only [List.append_assoc, List.singleton_append] at later
    exact later

theorem usesStep (uses : s.Uses used entered p.shelf) (shows : c.Shows p) (sound : p.Sound)
    (free : p.pins = []) (filter : Filter K V) (now : Nat) {call : Call K V} (easy : call.easy = true) :
    s.Uses (used ++ call.uses (p.step filter now call).answer)
      (entered ++ c.entering filter now call (p.step filter now call).answer)
      (p.step filter now call).plain.shelf := by
  have same := uses.still
  cases call with
  | get k =>
    simp only [Plain.step, Plain.given]
    split
    · exact usesFetch uses shows free filter now k
    · exact same
  | put k v =>
    simp only [Plain.step, Plain.given]
    split
    · exact usesStore uses shows free filter now k v
    · exact same
  | putAll entries =>
    simp only [Plain.step, Plain.given]
    split
    · rename_i valid
      exact usesStoreAll uses shows sound free filter now (by simpa using valid)
    · exact same
  | isPinned k | containsKey k | peek k =>
    simp only [Plain.step, Plain.given]
    split <;> exact same
  | pin | unpin | remove | clear | setCacheSize => exact Bool.noConfusion easy
  | _ => exact same

end used

theorem Reply.Agrees.uses {a b : Reply K V} (agrees : a.Agrees b) (call : Call K V) (filter : Filter K V)
    (now : Nat) (c : Cache K V) :
    call.uses a = call.uses b ∧ c.entering filter now call a = c.entering filter now call b := by
  unfold Agrees at agrees
  split at agrees
  · cases call <;> exact ⟨rfl, rfl⟩
  · rw [agrees]
    exact ⟨rfl, rfl⟩

namespace Session
variable [Identity K] {s : Session K V} {p : Plain K V}

/-- What each call of some moves gives in its turn. -/
def gather (each : Session K V → Call K V → List K) (filter : Filter K V) (s : Session K V) :
    List (Move K V) → List K
  | [] => []
  | .wait time :: rest => gather each filter { s with now := s.now + time } rest
  | .call call :: rest => each s call ++ gather each filter (s.after filter call) rest

/-- The keys used by some moves, in order. -/
def used (filter : Filter K V) : Session K V → List (Move K V) → List K :=
  gather (fun s call => call.uses (s.answer filter call)) filter

/-- The keys that entered the primary tier in some moves, in order. -/
def entered (filter : Filter K V) : Session K V → List (Move K V) → List K :=
  gather (fun s call => s.cache.entering filter s.now call (s.answer filter call)) filter

variable [EquivBEq K]

theorem Tracks.used (tracks : s.Tracks p) (free : p.pins = []) {t : Shelf K V} {before came : List K}
    (uses : t.Uses before came p.shelf) (filter : Filter K V) {moves : List (Move K V)}
    (easy : ∀ call, .call call ∈ moves → call.easy = true) :
    t.Uses (before ++ s.used filter moves) (came ++ s.entered filter moves)
      (p.run filter s.now moves).2.shelf := by
  induction moves generalizing s p before came with
  | nil => exact uses.still
  | cons move rest ih =>
    have later : ∀ call, .call call ∈ rest → call.easy = true := fun call mem => easy call (by simp [mem])
    cases move with
    | wait time => exact ih (tracks.waited time) free uses later
    | call call =>
      have now := easy call (by simp)
      have clear : (p.step filter s.now call).plain.pins = [] := by
        rw [Plain.stepPins, free]
        cases call with
        | pin | unpin | remove | clear | setCacheSize => exact Bool.noConfusion now
        | _ => rfl
      have stepped := usesStep uses tracks.shows tracks.sound free filter s.now now
      have agrees := (tracks.shows.step tracks.sound filter s.now call).answer
      obtain ⟨using', entering⟩ := agrees.uses call filter s.now s.cache
      rw [← using', ← entering] at stepped
      have run := ih (tracks.call filter s.now call) clear stepped later
      simp only [List.append_assoc] at run
      exact run

theorem runContents (filter : Filter K V) {config : Config} (started : start config = .ok s) {most : UInt64}
    (sized : config.cacheSize = some most) {moves : List (Move K V)}
    (easy : ∀ call, .call call ∈ moves → call.easy = true) :
    ∃ listing, (s.run filter moves).answer filter .keys = .keys listing ∧ listing.pinned = [] ∧
      (config.lru = true →
        List.Forall₂ SameKey listing.recent ((s.used filter moves).reverse.eraseDups.take most.toNat)) ∧
      (config.lru = false → listing.recent = (s.entered filter moves).reverse.take most.toNat) := by
  obtain ⟨tracks, _⟩ := startTracks started
  obtain ⟨final, _⟩ := tracks.run filter moves
  have uses := tracks.used rfl .none filter easy
  have capped : (Plain.start config : Plain K V).shelf.capacity = some most.toNat :=
    congrArg (Option.map UInt64.toNat) sized
  obtain ⟨recent, pinned, _⟩ := final.shows.listing (s.run filter moves).now
  refine ⟨_, rfl, ?_, fun lru => ?_, fun fifo => ?_⟩
  · have bare := congrArg (List.map Prod.fst) (uses.bare rfl)
    exact List.Perm.eq_nil (pinned.trans (List.Perm.of_eq bare))
  · have ordered : (Plain.start config : Plain K V).shelf.Ordered :=
      ⟨lru, rfl, List.Pairwise.nil, fun _ _ => Nat.zero_le _⟩
    rw [recent]
    exact (uses.ranked ordered rfl capped).2.2
  · rw [recent]
    exact (uses.queued rfl fifo capped).2.2

omit [BEq K] [Identity K] [EquivBEq K] in
/- Key 1 comes back from the overflow tier and key 3 is put again, which tells one order from the other;
key 2 has expired by the time it is asked for, and key 9 never was there. -/
theorem runContentsSmall :
    let config : Config := { lru := true, cacheSize := some 2, reclaimAfter := some 1 }
    let byEntry : Config := { cacheSize := some 2, reclaimAfter := some 1 }
    let filter : Filter Nat Nat := Filter.all
    let moves : List (Move Nat Nat) :=
      [.call (.putAll [(1, 10), (2, 20), (3, 30)]), .call (.get 1), .call (.put 3 33), .wait 1000000,
        .call (.get 2), .call (.get 9)]
    let s : Session Nat Nat := ⟨0, .empty true (some 2) none (some 1000000)⟩
    let r : Session Nat Nat := ⟨0, .empty false (some 2) none (some 1000000)⟩
    (start config = .ok s ∧ start byEntry = .ok r ∧ (∀ call, .call call ∈ moves → call.easy = true) ∧
      s.used filter moves = [1, 2, 3, 1, 3] ∧ r.entered filter moves = [1, 2, 3, 1]) ∧
    (∃ listing, (s.run filter moves).answer filter .keys = .keys listing ∧
      List.Forall₂ SameKey listing.recent [3, 1]) ∧
    ∃ listing, (r.run filter moves).answer filter .keys = .keys listing ∧ listing.recent = [1, 3] := by
  intro config byEntry filter moves s r
  have started : start config = .ok s := rfl
  have also : start byEntry = .ok r := rfl
  have easy : ∀ call, .call call ∈ moves → call.easy = true := by simp [moves, Call.easy]
  have used : s.used filter moves = [1, 2, 3, 1, 3] := by decide
  have entered : r.entered filter moves = [1, 2, 3, 1] := by decide
  obtain ⟨first, listed, _, ranked, _⟩ := runContents filter started rfl easy
  obtain ⟨second, told, _, _, queued⟩ := runContents filter also rfl easy
  have recent := ranked rfl
  have latest := queued rfl
  rw [used] at recent
  rw [entered] at latest
  exact ⟨⟨started, also, easy, used, entered⟩, ⟨first, listed, recent⟩, second, told, latest⟩

end Session
end TieredCache
