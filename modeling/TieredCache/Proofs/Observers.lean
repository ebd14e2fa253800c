import TieredCache.Proofs.Live
import TieredCache.Proofs.PinSet
import TieredCache.Proofs.Refinement

/-! What can be asked of a cache at one moment, and what it would do at that moment, tell one and the
same thing. Counting, listing and looking up read different structures: the slab, its index, the
queue, the map of the overflow tier. They agree because each entry that can be found stands in just
one of them and once. -/
namespace TieredCache
open Keyed (Apart find without)
variable {K V : Type}

def Reply.isListing : Reply K V → Bool
  | .keys _ => true
  | _ => false

theorem Reply.Agrees.told {a b : Reply K V} (agrees : a.Agrees b) (plain : b.isListing = false) : a = b := by
  unfold Agrees at agrees
  split at agrees
  · exact Bool.noConfusion plain
  · exact agrees

variable [BEq K]

namespace Plain
variable {p : Plain K V}

omit [BEq K] in
theorem listingKeys (p : Plain K V) (now : Nat) : (p.listing now).keys = (p.live now).map Prod.fst := by
  simp [listing, Listing.keys, live, Shelf.entries, Admission.entry, Function.comp_def]

omit [BEq K] in
theorem sizeListed (p : Plain K V) (now : Nat) : p.size now = (p.listing now).keys.length := by
  simp [size, listing, Listing.keys, Nat.add_assoc]

theorem lookupListed (p : Plain K V) (now : Nat) (k : K) :
    (p.lookup now k).isSome = (p.listing now).keys.any (· == k) := by
  rw [lookupFind, listingKeys, Option.isSome_map, find, List.isSome_find?, List.any_map]
  rfl

omit [BEq K] in
theorem givenValid [Identity K] {k : K} (valid : Identity.valid k = true) (op : KeyedOp)
    (turn : Turn K V (Reply K V)) : p.given op [k] turn = turn := by
  simp [given, valid]

theorem withoutGone (pins : List K) (k : K) : (without id pins k).any (· == k) = false := by
  simp [without]

variable [EquivBEq K]

theorem withPinHeld (pins : List K) (k : K) : (withPin pins k).any (· == k) = true := by
  unfold withPin
  split
  · assumption
  · simp

omit [EquivBEq K] in
theorem releaseAnswer (p : Plain K V) (filter : Filter K V) (now : Nat) (k : K) :
    (p.release filter now k).answer = p.isPinned k := by
  unfold release
  cases p.shelf.find? k <;> rfl

theorem discardGone (p : Plain K V) (now : Nat) (k : K) : (p.discard now k).plain.lookup now k = none := by
  have nothing : ∀ v, ¬(p.discard now k).plain.has now k v := by
    intro v held
    obtain ⟨other, _⟩ := discardHas k held
    exact Bool.eq_false_iff.mp other (BEq.refl k)
  exact lookupNone.mpr nothing

end Plain

namespace Cache

theorem Shows.listingKeys [EquivBEq K] {c : Cache K V} {p : Plain K V} (shows : c.Shows p) (now : Nat) :
    (c.listing now).keys.Perm (p.listing now).keys := by
  obtain ⟨recent, pinned, overflow⟩ := shows.listing now
  unfold Listing.keys
  rw [recent, overflow]
  exact (pinned.append_left _).append_right _

end Cache

namespace Session
variable [Identity K]

def answer (filter : Filter K V) (s : Session K V) (call : Call K V) : Reply K V :=
  (s.step filter (.call call)).1.1

def after (filter : Filter K V) (s : Session K V) (call : Call K V) : Session K V :=
  (s.step filter (.call call)).2

/-- The keys a session lists and those it has pinned, with what it counts. -/
structure Lists (filter : Filter K V) (s : Session K V) (listing : Listing K) (pinned : List K) : Prop where
  keys : s.answer filter .keys = .keys listing
  once : Apart id listing.keys
  size : s.answer filter .size = .count listing.keys.length
  isEmpty : s.answer filter .isEmpty = .flag listing.keys.isEmpty
  pinnedKeys : s.answer filter .pinnedKeys = .pinned pinned

/-- All that a session can tell of one key: what it finds there, each operation on the key would give
back, and whether it lists the key. -/
structure Tells (filter : Filter K V) (s : Session K V) (listing : Listing K) (pinned : List K) (k : K)
    (found : Option V) : Prop where
  peek : s.answer filter (.peek k) = .value found
  containsKey : s.answer filter (.containsKey k) = .flag found.isSome
  listed : found.isSome = listing.keys.any (· == k)
  get : s.answer filter (.get k) = .value found
  put : ∀ v, s.answer filter (.put k v) = .value found
  remove : s.answer filter (.remove k) = .value found
  pin : s.answer filter (.pin k) = .flag found.isSome
  isPinned : s.answer filter (.isPinned k) = .flag (pinned.any (· == k))
  unpin : s.answer filter (.unpin k) = .flag (pinned.any (· == k))
  afterPin : (s.after filter (.pin k)).answer filter (.isPinned k) = .flag true
  afterUnpin : (s.after filter (.unpin k)).answer filter (.isPinned k) = .flag false
  afterRemove : (s.after filter (.remove k)).answer filter (.containsKey k) = .flag false ∧
    (s.after filter (.remove k)).answer filter (.isPinned k) = .flag false

variable [EquivBEq K] {s : Session K V} {p : Plain K V}

theorem Tracks.answers (tracks : s.Tracks p) (filter : Filter K V) (call : Call K V) {reply : Reply K V}
    (told : (p.step filter s.now call).answer = reply) (plain : reply.isListing = false) :
    s.answer filter call = reply := by
  have agrees := (tracks.shows.step tracks.sound filter s.now call).answer
  rw [told] at agrees
  exact agrees.told plain

theorem Tracks.after (tracks : s.Tracks p) (filter : Filter K V) (call : Call K V) :
    (s.after filter call).Tracks (p.step filter s.now call).plain := tracks.call filter s.now call

theorem Tracks.pinAnswers (tracks : s.Tracks p) (filter : Filter K V) {k : K}
    (valid : Identity.valid k = true) {held : Bool} (pinned : p.isPinned k = held) :
    s.answer filter (.isPinned k) = .flag held := by
  have told : (p.step filter s.now (.isPinned k)).answer = .flag held :=
    (congrArg Turn.answer (Plain.givenValid valid _ _)).trans (congrArg Reply.flag pinned)
  exact tracks.answers filter _ told rfl

theorem Tracks.lookupAnswers (tracks : s.Tracks p) (filter : Filter K V) {k : K}
    (valid : Identity.valid k = true) {found : Option V} (lookup : p.lookup s.now k = found) :
    s.answer filter (.peek k) = .value found ∧
    s.answer filter (.containsKey k) = .flag found.isSome := by
  have peeked : (p.step filter s.now (.peek k)).answer = .value found :=
    (congrArg Turn.answer (Plain.givenValid valid _ _)).trans (congrArg Reply.value lookup)
  have contained : (p.step filter s.now (.containsKey k)).answer = .flag found.isSome :=
    (congrArg Turn.answer (Plain.givenValid valid _ _)).trans
      (congrArg (fun found : Option V => Reply.flag found.isSome) lookup)
  exact ⟨tracks.answers filter _ peeked rfl, tracks.answers filter _ contained rfl⟩

theorem Tracks.lists (tracks : s.Tracks p) (filter : Filter K V) :
    s.Lists filter (s.cache.listing s.now) s.cache.pins.keys := by
  have same := tracks.shows.listingKeys s.now
  have size : s.cache.size s.now = (s.cache.listing s.now).keys.length := by
    rw [tracks.shows.size, p.sizeListed, same.length_eq]
  have once : Apart id ((p.live s.now).map Prod.fst) :=
    (Keyed.apartMapped id Prod.fst _).mpr (tracks.sound.single.liveApart s.now)
  constructor
  · rfl
  · exact (Keyed.apartPerm same).mpr (p.listingKeys s.now ▸ once)
  · exact congrArg Reply.count size
  · have empty : s.cache.isEmpty s.now = (s.cache.listing s.now).keys.isEmpty := by
      rw [Cache.isEmpty, size]
      cases (s.cache.listing s.now).keys <;> rfl
    exact congrArg Reply.flag empty
  · rfl

theorem Tracks.tells (tracks : s.Tracks p) (filter : Filter K V) {k : K}
    (valid : Identity.valid k = true) :
    s.Tells filter (s.cache.listing s.now) s.cache.pins.keys k (p.lookup s.now k) := by
  have single := tracks.sound.single
  have listed := (tracks.shows.listingKeys s.now).any_eq (f := (· == k))
  have pinned : p.isPinned k = s.cache.pins.keys.any (· == k) := (tracks.shows.pinned k).symm
  obtain ⟨peek, containsKey⟩ := tracks.lookupAnswers filter valid rfl
  have given {op : KeyedOp} {turn : Turn K V (Reply K V)} {reply : Reply K V} (told : turn.answer = reply) :
      (p.given op [k] turn).answer = reply := by rw [Plain.givenValid valid, told]
  have pins (call : Call K V) {held : Bool} (now : (call.pinned p.pins).any (· == k) = held) :
      (s.after filter call).answer filter (.isPinned k) = .flag held :=
    (tracks.after filter call).pinAnswers filter valid (by rw [Plain.isPinned, p.stepPins, now])
  have gone : (p.step filter s.now (.remove k)).plain.lookup s.now k = none := by
    rw [Plain.step, Plain.givenValid valid]
    exact p.discardGone s.now k
  constructor
  · exact peek
  · exact containsKey
  · rw [listed, p.lookupListed]
  · have fetched := Plain.fetchAnswer single filter s.now k
    exact tracks.answers filter _ (given (congrArg Reply.value fetched)) rfl
  · intro v
    have stored := Plain.storeAnswer single filter s.now k v
    exact tracks.answers filter _ (given (congrArg Reply.value stored)) rfl
  · have discarded := Plain.discardAnswer single s.now k
    exact tracks.answers filter _ (given (congrArg Reply.value discarded)) rfl
  · have held := Plain.holdAnswer single s.now k
    exact tracks.answers filter _ (given (congrArg Reply.flag held)) rfl
  · exact tracks.pinAnswers filter valid pinned
  · have released := (p.releaseAnswer filter s.now k).trans pinned
    exact tracks.answers filter _ (given (congrArg Reply.flag released)) rfl
  · exact pins (.pin k) (by rw [Call.pinned, if_pos valid, Plain.withPinHeld])
  · exact pins (.unpin k) (by rw [Call.pinned, if_pos valid, Plain.withoutGone])
  · have emptied := (tracks.after filter (.remove k)).lookupAnswers filter valid gone
    exact ⟨emptied.2, pins (.remove k) (by rw [Call.pinned, if_pos valid, Plain.withoutGone])⟩

theorem runObserved (filter : Filter K V) {config : Config} (started : start config = .ok s)
    (moves : List (Move K V)) :
    ∃ listing pinned, (s.run filter moves).Lists filter listing pinned ∧
      ∀ k, Identity.valid k = true → ∃ found, (s.run filter moves).Tells filter listing pinned k found := by
  obtain ⟨tracks, _⟩ := startTracks started
  obtain ⟨final, _⟩ := tracks.run filter moves
  exact ⟨_, _, final.lists filter, fun k valid => ⟨_, final.tells filter valid⟩⟩

/- Key 1 is pinned; 2 and 3 are evicted in turn, and of the two only 3 has not expired. -/
theorem runObservedSmall :
    let config : Config := { lru := true, cacheSize := some 1, reclaimAfter := some 1 }
    let filter : Filter Nat Nat := fun _ _ => true
    let moves : List (Move Nat Nat) :=
      [.call (.put 1 10), .call (.pin 1), .call (.put 2 20), .call (.put 3 30), .wait 500000,
        .call (.put 4 40), .wait 500000]
    let s : Session Nat Nat := ⟨0, .empty true (some 1) none (some 1000000)⟩
    let final := s.run filter moves
    start config = .ok s ∧ final.answer filter .keys = .keys ⟨[4], [1], [3]⟩ ∧
    ∃ listing pinned, final.Lists filter listing pinned ∧
      ∃ found, final.Tells filter listing pinned 3 found := by
  intro config filter moves s final
  have started : start config = .ok s := rfl
  obtain ⟨listing, pinned, lists, tells⟩ := runObserved filter started moves
  exact ⟨started, by decide, listing, pinned, lists, tells 3 rfl⟩

end Session
end TieredCache
