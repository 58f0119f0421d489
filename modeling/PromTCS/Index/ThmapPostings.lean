import PromTCS.Base.Coding
import PromTCS.Index.PostingsCursor
import PromTCS.Label.Label

/-!
# The inverted index with migration

`ThmapPostings` keeps a posting list for each label, in a map from names to maps from
values. `migrate` moves the coldest lists to a `MergeSet`, an ordered store on disk, under
the name and the value written one after the other, and takes them out of the maps; `get`
makes a list in memory again of what it finds in the store.

One thread runs. `thmap` and `MergeSet` are maps, and `hot_queue_` is a queue of `1 << 16`
places in which a push waits for room. What ends a run otherwise is a `Fault`.
-/

namespace PromTCS

namespace ThmapPostings

/-- What ends a run: the use of a null pointer, the overflow of the `int` that counts the
ids of a list, a value of the store that is too short for its count, and a loop that does
not end. -/
inductive Fault
  | nullPosting
  | overflow
  | shortValue
  | diverges
deriving DecidableEq, Repr

end ThmapPostings

open ThmapPostings (Fault)

structure ConcurrencyPostingList where
  postingList : PrefixPostingsV2
  hotValue : BitVec 32
deriving DecidableEq

namespace ConcurrencyPostingList

def empty : ConcurrencyPostingList where
  postingList := .empty
  hotValue := 0

/-- `posting_list_.insert(id)` and `hot_value_.fetch_add(1)`. -/
def insert (c : ConcurrencyPostingList) (id : ℕ) : Except Fault ConcurrencyPostingList :=
  let list := c.postingList.insert id
  if 2 ^ 31 ≤ list.num then .error .overflow
  else .ok { postingList := list, hotValue := c.hotValue + 1 }

end ConcurrencyPostingList

namespace PrefixPostingsV2

/-- The ids that `next` and `at` yield after `reset_cursor`. -/
def listing (p : PrefixPostingsV2) : List ℕ :=
  cursorOps.readLoop (p.num + 1) p.resetCursor

end PrefixPostingsV2

namespace MergeSetPostings

open Coding

def key (l : Label) : List Byte := l.label ++ l.value

/-- The value `AddMergeSet` puts for a list. -/
def encode (p : PrefixPostingsV2) : List Byte :=
  putFixed32 (BitVec.ofNat 32 p.num) ++ p.listing.flatMap fun id => putFixed64 (BitVec.ofNat 64 id)

/-- The loop of `GetAndReadMergeSet` over the ids of a value. -/
def getIds : ℕ → List Byte → Option (List ℕ)
  | 0, _ => some []
  | n + 1, val => do
    let (id, val) ← getFixed64 val
    let ids ← getIds n val
    pure (id.toNat :: ids)

def decode (val : List Byte) : Option (List ℕ) := do
  let (num, val) ← getFixed32 val
  getIds num.toNat val

end MergeSetPostings

/-- The product of `label_num_` with a percentage between 0 and 1, rounded to the
`uint32_t` `batch_size`. -/
structure Percent where
  batchSize : BitVec 32 → BitVec 32
  le : ∀ n, batchSize n ≤ n

/-- `std::sort` by `cmp`, which leaves the order of equally hot labels open. -/
structure HotSort where
  sort : List (Label × BitVec 32) → List (Label × BitVec 32)
  perm : ∀ l, (sort l).Perm l
  sorted : ∀ l, (sort l).Pairwise fun a b => b.2 ≤ a.2

structure ThmapPostings where
  keyMap : List Byte → Option (List Byte → Option ConcurrencyPostingList)
  labelNum : BitVec 32
  hotQueue : List Label
  hotList : List (Label × BitVec 32)
  mergeset : List Byte → Option (List Byte)

namespace ThmapPostings

def empty : ThmapPostings where
  keyMap := fun _ => none
  labelNum := 0
  hotQueue := []
  hotList := []
  mergeset := fun _ => none

variable (t : ThmapPostings) (l : Label)

def posting : Option ConcurrencyPostingList :=
  (t.keyMap l.label).bind fun values => values l.value

/-- `thmap_put` of a list, into a new map of values if the name has none. -/
def setPosting (c : ConcurrencyPostingList) : ThmapPostings :=
  let values := (t.keyMap l.label).getD fun _ => none
  { t with
    keyMap := Function.update t.keyMap l.label (some (Function.update values l.value (some c))) }

/-- The places of `hot_queue_`, and the length above which `add` empties it: the macro
`HOT_QUEUE_SIZE / 2` is `1 << (16 / 2)`. -/
def hotQueueSize : ℕ := 65536

def hotQueueLimit : ℕ := 256

/-- `hot_queue_.push(l)`. -/
def pushHot : Except Fault ThmapPostings :=
  if t.hotQueue.length < hotQueueSize then .ok { t with hotQueue := t.hotQueue ++ [l] }
  else .error .diverges

def newPosting (c : ConcurrencyPostingList) :
    Except Fault ThmapPostings := do
  let t ← (t.setPosting l c).pushHot l
  pure { t with labelNum := t.labelNum + 1 }

def readFromMergeset : Except Fault (List ℕ) :=
  match t.mergeset (MergeSetPostings.key l) with
  | none => .ok []
  | some val =>
    match MergeSetPostings.decode val with
    | none => .error .shortValue
    | some ids => .ok ids

def get :
    Except Fault (Option ConcurrencyPostingList × ThmapPostings) :=
  match t.keyMap l.label with
  | none => pure (none, t)
  | some values =>
    match values l.value with
    | some c => pure (some c, t)
    | none => do
      let ids ← t.readFromMergeset l
      if ids = [] then pure (none, t)
      else do
        let c ← ids.foldlM ConcurrencyPostingList.insert .empty
        let t ← t.newPosting l c
        pure (some c, t)

/-- `get_and_read(l, listing)` with an empty `listing`. The cursor it resets is where
`reset_cursor` puts it all the time. -/
def getAndRead : Except Fault (Bool × List ℕ) :=
  match t.keyMap l.label with
  | none => pure (false, [])
  | some values =>
    match values l.value with
    | some c => pure (true, c.postingList.listing)
    | none => do
      let ids ← t.readFromMergeset l
      pure (!ids.isEmpty, ids)

/-- `get(l)->hot_value_.load()`. -/
def hotValue : Except Fault (BitVec 32 × ThmapPostings) := do
  match ← t.get l with
  | (none, _) => throw .nullPosting
  | (some c, t) => pure (c.hotValue, t)

/-- The loop that empties `hot_queue_`. A label that `get` puts back is in memory the
second time, so twice as many rounds as there are labels are enough. -/
def drainLoop : ℕ → ThmapPostings → Except Fault ThmapPostings
  | 0, _ => .error .diverges
  | fuel + 1, t =>
    match t.hotQueue with
    | [] => pure t
    | l :: queue => do
      let (hot, t) ← { t with hotQueue := queue }.hotValue l
      drainLoop fuel { t with hotList := t.hotList ++ [(l, hot)] }

def drainQueue (t : ThmapPostings) : Except Fault ThmapPostings :=
  drainLoop (2 * t.hotQueue.length + 1) t

/-- The start of `add`, which empties a long queue. -/
def drainIfLong (t : ThmapPostings) : Except Fault ThmapPostings :=
  if hotQueueLimit < t.hotQueue.length then t.drainQueue else pure t

/-- `add(id, l)`. The lookups made again under a lock find the same. -/
def add (t : ThmapPostings) (id : Word) (l : Label) : Except Fault ThmapPostings := do
  let t ← t.drainIfLong
  match t.posting l with
  | some c => do
    let c ← c.insert id.toNat
    pure (t.setPosting l c)
  | none => do
    let c ← ConcurrencyPostingList.empty.insert id.toNat
    t.newPosting l c

/-- The loop of `migrate` that updates `hot_list_`. -/
def refreshLoop : List (Label × BitVec 32) → ThmapPostings →
    Except Fault (List (Label × BitVec 32) × ThmapPostings)
  | [], t => pure ([], t)
  | (l, _) :: hots, t => do
    let (hot, t) ← t.hotValue l
    let (hots, t) ← refreshLoop hots t
    pure ((l, hot) :: hots, t)

def addMergeSet : Except Fault ThmapPostings := do
  match ← t.get l with
  | (none, _) => throw .nullPosting
  | (some c, t) =>
    pure { t with
      mergeset := Function.update t.mergeset (MergeSetPostings.key l)
        (some (MergeSetPostings.encode c.postingList)) }

def delPosting : Except Fault ThmapPostings :=
  match t.keyMap l.label with
  | none => .error .nullPosting
  | some values => .ok { t with
      keyMap := Function.update t.keyMap l.label (some (Function.update values l.value none)) }

/-- The labels from position `hot_list_.size() - batch_size` on, in 32-bit arithmetic. -/
def batchOf (hots : List (Label × BitVec 32)) (batchSize : BitVec 32) : List Label :=
  (hots.drop (BitVec.ofNat 32 hots.length - batchSize).toNat).map Prod.fst

/-- The positions of `hot_list_` that the loops of `migrate` read. -/
def batchPositions (hots : List (Label × BitVec 32)) (batchSize : BitVec 32) : List ℕ :=
  let start := (BitVec.ofNat 32 hots.length - batchSize).toNat
  List.range' start (hots.length - start)

/-- `migrate(percent)`. The loops count with an `uint32_t`. -/
def migrate (t : ThmapPostings) (order : HotSort) (percent : Percent) :
    Except Fault ThmapPostings := do
  let (hots, t) ← refreshLoop t.hotList t
  let batchSize := percent.batchSize t.labelNum
  let t ← { t with hotList := hots }.drainQueue
  if 2 ^ 32 ≤ t.hotList.length then throw .diverges
  else do
    let batch := batchOf (order.sort t.hotList) batchSize
    let t ← batch.foldlM addMergeSet t
    let t ← batch.foldlM delPosting t
    pure { t with hotList := [] }

/-- What `migrate(percent)` returns. -/
def migrateCount (t : ThmapPostings) (percent : Percent) : Except Fault (BitVec 32) := do
  let (_, t) ← refreshLoop t.hotList t
  pure (percent.batchSize t.labelNum)

/-! ## Steps -/

inductive Op
  | add (id : Word) (l : Label)
  | get (l : Label)
  | getAndRead (l : Label)
  | migrate (percent : Percent)

def step (order : HotSort) (t : ThmapPostings) : Op → Except Fault ThmapPostings
  | .add id l => t.add id l
  | .get l => do
    let (_, t) ← t.get l
    pure t
  | .getAndRead l => do
    let _ ← t.getAndRead l
    pure t
  | .migrate percent => t.migrate order percent

end ThmapPostings

end PromTCS
