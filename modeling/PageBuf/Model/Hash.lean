import Mathlib.Algebra.GroupWithZero.Nat
import PageBuf.Lib.Yields

/-!
# Hash — the hash table of `pagebuf_hash.h`

The table is intrusive: its items are the caller's objects, linked through the
handle that each of them holds, once in the order they were added and once in
the chain of their bucket. An object and its handle have one address here, and
the `tbl` of every handle is the one table. What the `key` of a handle points
to is stored in the handle.

Unsigned arithmetic is on 32 bits. `pb_uthash_fatal`, a division by zero and
the messages of `PB_HASH_FSCK` are faults.
-/

namespace Pb

open StateRun Function

/-! ## Machine arithmetic -/

/-- What an `unsigned` keeps of a number. -/
def u32 (n : Nat) : Nat := n % 2 ^ 32

theorem u32_of_lt {n : Nat} (h : n < 2 ^ 32) : u32 n = n := Nat.mod_eq_of_lt h

/-- `++` on an `unsigned`. -/
def u32Inc (n : Nat) : Nat := u32 (n + 1)

/-- `--` on an `unsigned`, and the subtraction of `1U`. -/
def u32Dec (n : Nat) : Nat := u32 (n + (2 ^ 32 - 1))

theorem u32Dec_of_pos {n : Nat} (hpos : 0 < n) (hlt : n ≤ 2 ^ 32) : u32Dec n = n - 1 := by
  unfold u32Dec u32
  omega

/-! ## Objects -/

/-- `struct UT_hash_handle`. -/
structure HashHandle (κ : Type) where
  prev : Option Nat
  next : Option Nat
  hhPrev : Option Nat
  hhNext : Option Nat
  key : κ
  hashv : Nat
deriving DecidableEq, Repr

/-- `struct UT_hash_bucket`. -/
structure HashBucket where
  hhHead : Option Nat
  count : Nat
  expandMult : Nat
deriving DecidableEq, Repr

/-- A bucket as `memset` leaves it. -/
def HashBucket.zero : HashBucket := ⟨none, 0, 0⟩

/-- `struct UT_hash_table`. -/
structure HashTable where
  buckets : List HashBucket
  numBuckets : Nat
  log2NumBuckets : Nat
  numItems : Nat
  tail : Nat
  idealChainMaxlen : Nat
  nonidealItems : Nat
  ineffExpands : Nat
  noexpand : Nat
deriving DecidableEq, Repr

/-- The memory: the handles of the caller's objects, the head pointer, the table
it leads to, and the number of requests made so far to the memory allocator. -/
structure HashHeap (κ : Type) where
  handles : Nat → Option (HashHandle κ)
  head : Option Nat
  tbl : Option HashTable
  calls : Nat

/-- What the header is compiled with: `PB_HASH_FCN`, how `malloc` answers the
`n`th request for so many bytes, and whether `PB_HASH_DEBUG` is defined. -/
structure HashEnv (κ : Type) where
  fcn : κ → UInt32
  grants : Nat → Nat → Bool
  debug : Bool

/-- What stops the program. -/
inductive HashFault where
  | dangling
  | outOfBounds
  | arithmetic
  | fatal
  | oops
  | diverges
deriving DecidableEq, Repr

/-- Programs on the table. -/
abbrev HashM (κ : Type) := StateT (HashHeap κ) (Except HashFault)

variable {κ : Type}

/-! ## Reading and updating objects -/

def HashHeap.setHandle (h : HashHeap κ) (e : Nat) (H : Option (HashHandle κ)) : HashHeap κ :=
  { h with handles := update h.handles e H }

def getHandle (e : Nat) : HashM κ (HashHandle κ) := fun h =>
  match h.handles e with
  | some H => .ok (H, h)
  | none => .error .dangling

def modifyHandle (e : Nat) (f : HashHandle κ → HashHandle κ) : HashM κ Unit := do
  let H ← getHandle e
  modify (·.setHandle e (some (f H)))

/-- Writes through a pointer that may be null are guarded. -/
def modifyHandle? (x : Option Nat) (f : HashHandle κ → HashHandle κ) : HashM κ Unit :=
  match x with
  | none => pure ()
  | some e => modifyHandle e f

/-- `(head)->hh.tbl`. -/
def getTbl : HashM κ HashTable := do
  match (← get).head with
  | none => throw .dangling
  | some a => do
      let _ ← getHandle a
      match (← get).tbl with
      | none => throw .dangling
      | some T => pure T

def modifyTbl (f : HashTable → HashTable) : HashM κ Unit := do
  let T ← getTbl
  modify fun h => { h with tbl := some (f T) }

def getBucket (i : Nat) : HashM κ HashBucket := do
  match (← getTbl).buckets[i]? with
  | some B => pure B
  | none => throw .outOfBounds

def modifyBucket (i : Nat) (f : HashBucket → HashBucket) : HashM κ Unit := do
  let B ← getBucket i
  modifyTbl fun T => { T with buckets := T.buckets.set i (f B) }

/-- `pb_uthash_malloc` with its check. -/
def hashMalloc (env : HashEnv κ) (size : Nat) : HashM κ Unit := fun h =>
  if env.grants h.calls size then .ok ((), { h with calls := h.calls + 1 }) else .error .fatal

/-- `/` on an `unsigned`. -/
def u32Div (a b : Nat) : HashM κ Nat :=
  if b = 0 then throw .arithmetic else pure (a / b)

/-- `>>` on an `unsigned`. -/
def u32Shr (a b : Nat) : HashM κ Nat :=
  if 32 ≤ b then throw .arithmetic else pure (a >>> b)

/-- `if` without `else`. -/
def hashIf (p : Prop) [Decidable p] (m : HashM κ Unit) : HashM κ Unit :=
  if p then m else pure ()

/-! ## Jenkins' hash -/

/-- `PB_HASH_JEN_MIX`. -/
def hashJenMix (a b c : UInt32) : UInt32 × UInt32 × UInt32 :=
  let a := (a - b - c) ^^^ (c >>> 13)
  let b := (b - c - a) ^^^ (a <<< 8)
  let c := (c - a - b) ^^^ (b >>> 13)
  let a := (a - b - c) ^^^ (c >>> 12)
  let b := (b - c - a) ^^^ (a <<< 16)
  let c := (c - a - b) ^^^ (b >>> 5)
  let a := (a - b - c) ^^^ (c >>> 3)
  let b := (b - c - a) ^^^ (a <<< 10)
  let c := (c - a - b) ^^^ (b >>> 15)
  (a, b, c)

/-- Byte `n` of a key, shifted to its place. A byte the key does not have adds
nothing. -/
def hashJenByte (key : List UInt8) (n : Nat) (shift : UInt32) : UInt32 :=
  ((key[n]?).getD 0).toUInt32 <<< shift

/-- The twelve byte rounds of `PB_HASH_JEN` and its `switch`, whose cases fall
through. -/
def hashJenRounds (keylen : UInt32) : Nat → List UInt8 → UInt32 → UInt32 → UInt32 → UInt32
  | 0, _, _, _, hashv => hashv
  | fuel + 1, key, i, j, hashv =>
      let four (n : Nat) := hashJenByte key n 0 + hashJenByte key (n + 1) 8 +
        hashJenByte key (n + 2) 16 + hashJenByte key (n + 3) 24
      if 12 ≤ key.length then
        let (i, j, hashv) := hashJenMix (i + four 0) (j + four 4) (hashv + four 8)
        hashJenRounds keylen fuel (key.drop 12) i j hashv
      else
        -- the lowest byte of `hashv` is left to the length
        let last := hashJenByte key 8 8 + hashJenByte key 9 16 + hashJenByte key 10 24
        (hashJenMix (i + four 0) (j + four 4) (hashv + keylen + last)).2.2

/-- `PB_HASH_JEN`, without the bucket. -/
def hashJen (key : List UInt8) : UInt32 :=
  hashJenRounds key.length.toUInt32 (key.length / 12 + 1) key 0x9e3779b9 0x9e3779b9 0xfeedbeef

/-- The key of `PB_HASH_ADD_UINT64` in memory, the lowest byte first. -/
def uint64Bytes (n : Nat) : List UInt8 :=
  (List.range 8).map fun i => (n >>> (8 * i)).toUInt8

/-! ## Buckets -/

/-- `PB_HASH_TO_BKT`. -/
def hashToBkt (hashv numBkts : Nat) : Nat := hashv &&& u32Dec numBkts

/-- The `expand_mult` of a new bucket of `count` items: an item beyond the ideal
length of a chain is counted, and the bucket is expanded later. -/
def hashExpandMult (count expandMult : Nat) : HashM κ Nat := do
  let T ← getTbl
  if count > T.idealChainMaxlen then do
    modifyTbl fun T => { T with nonidealItems := u32Inc T.nonidealItems }
    u32Div count T.idealChainMaxlen
  else pure expandMult

/-- One round of the inner loop of `PB_HASH_EXPAND_BUCKETS`: an item goes to the
front of its new bucket. -/
def hashMove (e : Nat) (new : List HashBucket) : HashM κ (Option Nat × List HashBucket) := do
  let H ← getHandle e
  let T ← getTbl
  let bkt := hashToBkt H.hashv (u32 (T.numBuckets * 2))
  match new[bkt]? with
  | none => throw .outOfBounds
  | some B => do
      let count := u32Inc B.count
      let expandMult ← hashExpandMult count B.expandMult
      modifyHandle e fun H => { H with hhPrev := none, hhNext := B.hhHead }
      modifyHandle? B.hhHead fun H => { H with hhPrev := some e }
      pure (H.hhNext, new.set bkt ⟨some e, count, expandMult⟩)

/-- The inner loop of `PB_HASH_EXPAND_BUCKETS`. A chain of a sound table is no
longer than the table has items. -/
def hashMoveChain (hhHead : Option Nat) (new : List HashBucket) : HashM κ (List HashBucket) := do
  let T ← getTbl
  loopM .diverges (fun (thh, new) =>
    match thh with
    | none => pure (.inr new)
    | some e => do pure (.inl (← hashMove e new))) (T.numItems + 1) (hhHead, new)

/-- The outer loop of `PB_HASH_EXPAND_BUCKETS`. -/
def hashMoveAll (new : List HashBucket) : HashM κ (List HashBucket) := do
  let T ← getTbl
  loopM .diverges (fun (bktI, new) => do
    if bktI < T.numBuckets then do
      let B ← getBucket bktI
      pure (.inl (bktI + 1, ← hashMoveChain B.hhHead new))
    else pure (.inr new)) (T.numBuckets + 1) (0, new)

/-- `PB_HASH_EXPAND_BUCKETS`. -/
def hashExpandBuckets (env : HashEnv κ) : HashM κ Unit := do
  let T ← getTbl
  hashMalloc env (2 * T.numBuckets * 16)
  let whole ← u32Shr T.numItems (u32Inc T.log2NumBuckets)
  let rest := if T.numItems &&& u32Dec (u32 (T.numBuckets * 2)) ≠ 0 then 1 else 0
  modifyTbl fun T => { T with idealChainMaxlen := u32 (whole + rest), nonidealItems := 0 }
  let new ← hashMoveAll (List.replicate (2 * T.numBuckets) .zero)
  modifyTbl fun T =>
    let ineffExpands :=
      if T.nonidealItems > T.numItems >>> 1 then u32Inc T.ineffExpands else 0
    { T with
      buckets := new, numBuckets := u32 (T.numBuckets * 2),
      log2NumBuckets := u32Inc T.log2NumBuckets, ineffExpands := ineffExpands,
      noexpand := if ineffExpands > 1 then 1 else T.noexpand }

/-- `PB_HASH_ADD_TO_BKT` before it looks at the length of the chain. -/
def hashPush (bkt e : Nat) : HashM κ Unit := do
  modifyBucket bkt fun B => { B with count := u32Inc B.count }
  let B ← getBucket bkt
  modifyHandle e fun H => { H with hhPrev := none, hhNext := B.hhHead }
  modifyHandle? B.hhHead fun H => { H with hhPrev := some e }
  modifyBucket bkt fun B => { B with hhHead := some e }

/-- `PB_HASH_ADD_TO_BKT`. -/
def hashAddToBkt (env : HashEnv κ) (bkt e : Nat) : HashM κ Unit := do
  hashPush bkt e
  let B ← getBucket bkt
  let T ← getTbl
  hashIf (B.count ≥ u32 (u32Inc B.expandMult * 10) ∧ T.noexpand ≠ 1) (hashExpandBuckets env)

/-- `PB_HASH_DEL_IN_BKT`. -/
def hashDelInBkt (bkt e : Nat) : HashM κ Unit := do
  modifyBucket bkt fun B => { B with count := u32Dec B.count }
  let H ← getHandle e
  hashIf ((← getBucket bkt).hhHead = some e)
    (modifyBucket bkt fun B => { B with hhHead := H.hhNext })
  modifyHandle? H.hhPrev fun P => { P with hhNext := H.hhNext }
  let H ← getHandle e
  modifyHandle? H.hhNext fun N => { N with hhPrev := H.hhPrev }

/-- `PB_HASH_FIND_IN_BKT`. -/
def hashFindInBkt [DecidableEq κ] (hhHead : Option Nat) (key : κ) : HashM κ (Option Nat) := do
  let T ← getTbl
  loopM .diverges (fun out =>
    match out with
    | none => pure (.inr none)
    | some e => do
        let H ← getHandle e
        if H.key = key then pure (.inr (some e)) else pure (.inl H.hhNext))
    (T.numItems + 1) hhHead

/-! ## The integrity check -/

/-- `PB_HASH_OOPS`, unless what is checked holds. -/
def hashCheck (p : Prop) [Decidable p] : HashM κ Unit :=
  if p then pure () else throw .oops

/-- A walk of `PB_HASH_FSCK`: it follows `next` from `thh`, checks that `prev`
leads back, and counts. -/
def hashFsckWalk (next prev : HashHandle κ → Option Nat) (thh : Option Nat) : HashM κ Nat := do
  let T ← getTbl
  loopM .diverges (fun (thh, before, count) =>
    match thh with
    | none => pure (.inr count)
    | some e => do
        let H ← getHandle e
        hashCheck (prev H = before)
        pure (.inl (next H, some e, u32Inc count))) (T.numItems + 1) (thh, none, 0)

/-- `PB_HASH_FSCK` where `PB_HASH_DEBUG` is defined. -/
def hashFsck : HashM κ Unit := do
  match (← get).head with
  | none => pure ()
  | some a => do
      let T ← getTbl
      let count ← loopM .diverges (fun (bktI, count) => do
        if bktI < T.numBuckets then do
          let B ← getBucket bktI
          let bktCount ← hashFsckWalk HashHandle.hhNext HashHandle.hhPrev B.hhHead
          hashCheck (B.count = bktCount)
          pure (.inl (bktI + 1, u32 (count + bktCount)))
        else pure (.inr count)) (T.numBuckets + 1) (0, 0)
      hashCheck (count = T.numItems)
      let count ← hashFsckWalk HashHandle.next HashHandle.prev (some a)
      hashCheck (count = T.numItems)

/-! ## The operations -/

/-- `PB_HASH_MAKE_TABLE`. -/
def hashMakeTable (env : HashEnv κ) (e : Nat) : HashM κ Unit := do
  hashMalloc env 64
  hashMalloc env (32 * 16)
  modify fun h => { h with tbl := some {
    buckets := List.replicate 32 .zero, numBuckets := 32, log2NumBuckets := 5, numItems := 0,
    tail := e, idealChainMaxlen := 0, nonidealItems := 0, ineffExpands := 0, noexpand := 0 } }

/-- The first part of `PB_HASH_ADD_KEYPTR`: the item goes to the end of the
order. -/
def hashAppend (env : HashEnv κ) (e : Nat) : HashM κ Unit := do
  match (← get).head with
  | none => do
      modify fun h => { h with head := some e }
      modifyHandle e fun H => { H with prev := none }
      hashMakeTable env e
  | some _ => do
      let T ← getTbl
      modifyHandle T.tail fun H => { H with next := some e }
      modifyHandle e fun H => { H with prev := some T.tail }
      modifyTbl fun T => { T with tail := e }

/-- `PB_HASH_ADD_KEYPTR`. -/
def hashAdd (env : HashEnv κ) (e : Nat) (key : κ) : HashM κ Unit := do
  modifyHandle e fun H => { H with next := none, key := key }
  hashAppend env e
  modifyTbl fun T => { T with numItems := u32Inc T.numItems }
  let hashv := (env.fcn key).toNat
  modifyHandle e fun H => { H with hashv := hashv }
  hashAddToBkt env (hashToBkt hashv (← getTbl).numBuckets) e
  hashIf env.debug hashFsck

/-- `PB_HASH_DELETE` on the tail. What the source makes of a null `prev` is no
handle. -/
def hashDeleteTail (before : Option Nat) : HashM κ Unit :=
  match before with
  | none => throw .dangling
  | some p => modifyTbl fun T => { T with tail := p }

/-- `PB_HASH_DELETE` on the link that leads to the item. -/
def hashDeleteNext (before after : Option Nat) : HashM κ Unit :=
  match before with
  | some p => modifyHandle p fun P => { P with next := after }
  | none => modify fun h => { h with head := after }

/-- The patch-up of the order in `PB_HASH_DELETE`. -/
def hashUnlink (e : Nat) : HashM κ Unit := do
  let H ← getHandle e
  hashIf (e = (← getTbl).tail) (hashDeleteTail H.prev)
  hashDeleteNext H.prev H.next
  let H ← getHandle e
  modifyHandle? H.next fun N => { N with prev := H.prev }

/-- `PB_HASH_DELETE` before its integrity check. -/
def hashRemove (e : Nat) : HashM κ Unit := do
  let H ← getHandle e
  if H.prev = none ∧ H.next = none then do
    let _ ← getTbl
    modify fun h => { h with head := none, tbl := none }
  else do
    hashUnlink e
    hashDelInBkt (hashToBkt (← getHandle e).hashv (← getTbl).numBuckets) e
    modifyTbl fun T => { T with numItems := u32Dec T.numItems }

/-- `PB_HASH_DELETE`. -/
def hashDelete (env : HashEnv κ) (e : Nat) : HashM κ Unit := do
  hashRemove e
  hashIf env.debug hashFsck

/-- `PB_HASH_FIND`. -/
def hashFind [DecidableEq κ] (env : HashEnv κ) (key : κ) : HashM κ (Option Nat) := do
  match (← get).head with
  | none => pure none
  | some _ => do
      let bkt := hashToBkt (env.fcn key).toNat (← getTbl).numBuckets
      hashFindInBkt (← getBucket bkt).hhHead key

/-- `PB_HASH_CLR`. -/
def hashClear : HashM κ Unit := do
  match (← get).head with
  | none => pure ()
  | some _ => do
      let _ ← getTbl
      modify fun h => { h with head := none, tbl := none }

/-- `PB_HASH_CNT`. -/
def hashCount : HashM κ Nat := do
  match (← get).head with
  | none => pure 0
  | some _ => do pure (← getTbl).numItems

/-- The elements that `PB_HASH_ITER` comes to, each with its key, where the body
of the loop changes nothing. -/
def hashIter : HashM κ (List (Nat × κ)) := do
  match (← get).head with
  | none => pure []
  | some a => do
      let T ← getTbl
      loopM .diverges (fun (el, met) =>
        match el with
        | none => pure (.inr met)
        | some e => do
            let H ← getHandle e
            pure (.inl (H.next, met ++ [(e, H.key)]))) (T.numItems + 1) (some a, [])

end Pb
