import SynergyFormal.Lib.Wire
import Mathlib.Data.Finset.Sort
import Mathlib.Data.Fintype.Fin

/-!
# The address manager

`CAddrMan`: the peers a node has heard of (in up to four of 256 `new` buckets) and the
peers it has been connected to (in one of 64 `tried` buckets), with a vector of all ids
in random order and an index of the ids by address.  A call takes the outcomes of the
random numbers as a sequence of draws; the bucket hash, `CNetAddr::GetGroup` and
`CNetAddr::IsRoutable` are parameters.

An operation returns `none` where the source fails an assertion, indexes outside a
vector, or reads `mapInfo[n]` for an `n` that is not there.
-/

set_option autoImplicit false

namespace SynergyNet.AddrMan

open SynergyLib.Wire

abbrev triedBucketCount : ℕ := 64
abbrev triedBucketSize : ℕ := 64
abbrev newBucketCount : ℕ := 256
abbrev newBucketSize : ℕ := 64
abbrev triedBucketsPerGroup : UInt64 := 4
abbrev newBucketsPerSourceGroup : UInt64 := 32
abbrev newBucketsPerAddress : ℤ := 4
abbrev triedEntriesInspectOnEvict : ℕ := 4
abbrev horizonDays : Int64 := 30
abbrev retries : Int32 := 3
abbrev maxFailures : Int32 := 10
abbrev minFailDays : Int64 := 7
abbrev getAddrMaxPct : ℕ := 23
abbrev getAddrMax : ℕ := 2500

/-! ## Addresses -/

structure CNetAddr where
  ip : Bytes
  sized : ip.length = 16
deriving DecidableEq

structure CService extends CNetAddr where
  port : UInt16
deriving DecidableEq

structure CAddress extends CService where
  nServices : UInt64
  nTime : UInt32
  nLastTry : Int64
deriving DecidableEq

structure CAddrInfo extends CAddress where
  source : CNetAddr
  nLastSuccess : Int64
  nAttempts : Int32
  nRefCount : ℤ
  fInTried : Bool
  /-- The place in `vRandom`; `none` is the initial -1. -/
  nRandomPos : Option ℕ
deriving DecidableEq

/-- `CAddrInfo(addrIn, addrSource)`. -/
def newAddrInfo (addr : CAddress) (source : CNetAddr) : CAddrInfo :=
  { addr with
    nLastTry := 0, source, nLastSuccess := 0, nAttempts := 0, nRefCount := 0, fInTried := false
    nRandomPos := none }

def getKey (addr : CService) : Bytes :=
  addr.ip ++ [UInt8.ofNat (addr.port.toNat / 0x100), UInt8.ofNat (addr.port.toNat % 0x100)]

structure Params where
  /-- `Hash(...).Get64()`. -/
  hash64 : Bytes → UInt64
  getGroup : CNetAddr → Bytes
  isRoutable : CNetAddr → Bool

def getTriedBucket (params : Params) (nKey : Bytes) (info : CAddrInfo) : Fin triedBucketCount :=
  let hash1 := params.hash64 (byteString nKey ++ byteString (getKey info.toCService))
  let hash2 := params.hash64 (byteString nKey ++ byteString (params.getGroup info.toCNetAddr) ++
    leBytes 8 (hash1 % triedBucketsPerGroup).toNat)
  Fin.ofNat triedBucketCount hash2.toNat

def getNewBucket (params : Params) (nKey : Bytes) (info : CAddrInfo) (src : CNetAddr) :
    Fin newBucketCount :=
  let hash1 := params.hash64 (byteString nKey ++ byteString (params.getGroup info.toCNetAddr) ++
    byteString (params.getGroup src))
  let hash2 := params.hash64 (byteString nKey ++ byteString (params.getGroup src) ++
    leBytes 8 (hash1 % newBucketsPerSourceGroup).toNat)
  Fin.ofNat newBucketCount hash2.toNat

/-- An `unsigned int` time in the signed arithmetic of the comparisons. -/
def timeOf (nTime : UInt32) : Int64 := Int64.ofNat nTime.toNat

def isTerrible (nNow : Int64) (info : CAddrInfo) : Bool :=
  if info.nLastTry ≠ 0 ∧ info.nLastTry ≥ nNow - 60 then false
  else if timeOf info.nTime > nNow + 10 * 60 then true
  else if info.nTime = 0 ∨ nNow - timeOf info.nTime > horizonDays * 86400 then true
  else if info.nLastSuccess = 0 ∧ info.nAttempts ≥ retries then true
  else decide (nNow - info.nLastSuccess > minFailDays * 86400 ∧ info.nAttempts ≥ maxFailures)

/-! ## The tables -/

/-- `nIdCount`, an `int` of the source, does not wrap here: it counts the addresses ever created,
not those kept, and the ids it gives are new up to 2^31 of them. -/
structure CAddrMan where
  nKey : Bytes
  nIdCount : ℕ
  mapInfo : ℕ → Option CAddrInfo
  mapAddr : CNetAddr → Option ℕ
  vRandom : List ℕ
  nTried : ℤ
  vvTried : Fin triedBucketCount → List ℕ
  nNew : ℤ
  vvNew : Fin newBucketCount → Finset ℕ

/-- `CAddrMan()` with the random key it draws. -/
def freshAddrMan (nKey : Bytes) : CAddrMan where
  nKey
  nIdCount := 0
  mapInfo _ := none
  mapAddr _ := none
  vRandom := []
  nTried := 0
  vvTried _ := []
  nNew := 0
  vvNew _ := ∅

abbrev Draws := ℕ → ℕ

def getRandInt (draw nMax : ℕ) : ℕ := if nMax = 0 then 0 else draw % nMax

section Operations
variable (params : Params)

def setInfo (am : CAddrMan) (nId : ℕ) (info : CAddrInfo) : CAddrMan :=
  { am with mapInfo := Function.update am.mapInfo nId (some info) }

def find (am : CAddrMan) (addr : CNetAddr) : Option (ℕ × CAddrInfo) := do
  let nId ← am.mapAddr addr
  let info ← am.mapInfo nId
  return (nId, info)

def create (am : CAddrMan) (addr : CAddress) (source : CNetAddr) : CAddrMan :=
  { am with
    nIdCount := am.nIdCount + 1
    mapInfo := Function.update am.mapInfo am.nIdCount
      (some { newAddrInfo addr source with nRandomPos := some am.vRandom.length })
    mapAddr := Function.update am.mapAddr addr.toCNetAddr (some am.nIdCount)
    vRandom := am.vRandom ++ [am.nIdCount] }

def swapRandom (am : CAddrMan) (nRndPos1 nRndPos2 : ℕ) : Option CAddrMan :=
  if nRndPos1 = nRndPos2 then some am
  else do
    let nId1 ← am.vRandom[nRndPos1]?
    let nId2 ← am.vRandom[nRndPos2]?
    let info1 ← am.mapInfo nId1
    let info2 ← am.mapInfo nId2
    return { am with
      mapInfo := Function.update
        (Function.update am.mapInfo nId1 (some { info1 with nRandomPos := some nRndPos2 }))
        nId2 (some { info2 with nRandomPos := some nRndPos1 })
      vRandom := (am.vRandom.set nRndPos1 nId2).set nRndPos2 nId1 }

/-- The loop of `SelectTried`: passes left, index, bucket, the oldest id found so far and the
position it was drawn from. -/
def selectTriedLoop (mapInfo : ℕ → Option CAddrInfo) (draws : Draws) :
    ℕ → ℕ → List ℕ → Option (ℕ × ℕ) → Option (List ℕ × Option ℕ)
  | 0, _, vTried, oldest => some (vTried, oldest.map Prod.snd)
  | passes + 1, i, vTried, oldest =>
    if i < vTried.length then do
      let nPos := getRandInt (draws i) (vTried.length - i) + i
      let nTemp ← vTried[nPos]?
      let other ← vTried[i]?
      let vTried := (vTried.set nPos other).set i nTemp
      match oldest with
      | none => selectTriedLoop mapInfo draws passes (i + 1) vTried (some (nTemp, nPos))
      | some (nOldest, nOldestPos) =>
        let infoTemp ← mapInfo nTemp
        let infoOldest ← mapInfo nOldest
        if infoTemp.nLastSuccess < infoOldest.nLastSuccess then
          selectTriedLoop mapInfo draws passes (i + 1) vTried (some (nTemp, nPos))
        else selectTriedLoop mapInfo draws passes (i + 1) vTried (some (nOldest, nOldestPos))
    else some (vTried, oldest.map Prod.snd)

/-- The bucket after the shuffle, and the position to replace (`none` is -1). -/
def selectTried (am : CAddrMan) (nKBucket : Fin triedBucketCount) (draws : Draws) :
    Option (List ℕ × Option ℕ) :=
  selectTriedLoop am.mapInfo draws triedEntriesInspectOnEvict 0 (am.vvTried nKBucket) none

/-- Deletes an entry. -/
def eraseInfo (am : CAddrMan) (nId : ℕ) (info : CAddrInfo) : Option CAddrMan := do
  let nRandomPos ← info.nRandomPos
  let am ← swapRandom am nRandomPos (am.vRandom.length - 1)
  return { am with
    vRandom := am.vRandom.dropLast
    mapAddr := Function.update am.mapAddr info.toCNetAddr none
    mapInfo := Function.update am.mapInfo nId none
    nNew := am.nNew - 1 }

/-- What both branches of `ShrinkNew` do with the entry they give up: its reference in the
bucket is dropped, and with the last reference the entry. -/
def dropFromNew (am : CAddrMan) (nUBucket : Fin newBucketCount) (nId : ℕ) : Option CAddrMan := do
  let info ← am.mapInfo nId
  let fewer := { info with nRefCount := info.nRefCount - 1 }
  let am := setInfo am nId fewer
  let am ← (if fewer.nRefCount = 0 then eraseInfo am nId fewer else some am)
  return { am with
    vvNew := Function.update am.vvNew nUBucket ((am.vvNew nUBucket).erase nId) }

/-- The first entry of the bucket that can be deleted. -/
def firstTerrible (mapInfo : ℕ → Option CAddrInfo) (nNow : Int64) :
    List ℕ → Option (Option ℕ)
  | [] => some none
  | nId :: rest => do
      let info ← mapInfo nId
      if isTerrible nNow info then return some nId else firstTerrible mapInfo nNow rest

/-- The oldest entry of the bucket among the drawn places. -/
def oldestDrawn (mapInfo : ℕ → Option CAddrInfo) (drawn : List ℕ) :
    ℕ → List ℕ → Option ℕ → Option (Option ℕ)
  | _, [], nOldest => some nOldest
  | nI, nId :: rest, nOldest =>
    if nI ∈ drawn then
      match nOldest with
      | none => oldestDrawn mapInfo drawn (nI + 1) rest (some nId)
      | some old => do
          let info ← mapInfo nId
          let infoOldest ← mapInfo old
          if info.nTime < infoOldest.nTime then
            oldestDrawn mapInfo drawn (nI + 1) rest (some nId)
          else oldestDrawn mapInfo drawn (nI + 1) rest (some old)
    else oldestDrawn mapInfo drawn (nI + 1) rest nOldest

def shrinkNew (am : CAddrMan) (nUBucket : Fin newBucketCount) (nNow : Int64) (draws : Draws) :
    Option CAddrMan := do
  let vNew := (am.vvNew nUBucket).sort (· ≤ ·)
  match ← firstTerrible am.mapInfo nNow vNew with
  | some nId => dropFromNew am nUBucket nId
  | none =>
    let drawn := (List.range 4).map fun i => getRandInt (draws i) vNew.length
    let nOldest ← ← oldestDrawn am.mapInfo drawn 0 vNew none
    dropFromNew am nUBucket nOldest

/-- `info` is the entry of `nId`. -/
def makeTried (am : CAddrMan) (info : CAddrInfo) (nId : ℕ) (nOrigin : Fin newBucketCount)
    (draws : Draws) : Option CAddrMan :=
  if nId ∉ am.vvNew nOrigin then none
  else
    let holders := (Finset.univ.filter fun b => nId ∈ am.vvNew b).card
    let vvNew := fun b => (am.vvNew b).erase nId
    if info.nRefCount - holders ≠ 0 then none
    else
      let nKBucket := getTriedBucket params am.nKey info
      let vTried := am.vvTried nKBucket
      let tried := { info with nRefCount := info.nRefCount - holders, fInTried := true }
      let am := setInfo { am with vvNew, nNew := am.nNew - 1 } nId tried
      if vTried.length < triedBucketSize then
        some { am with
          vvTried := Function.update am.vvTried nKBucket (vTried ++ [nId])
          nTried := am.nTried + 1 }
      else do
        let (vTried, nOldestPos) ← selectTried am nKBucket draws
        let nPos ← nOldestPos
        let old ← vTried[nPos]?
        let infoOld ← am.mapInfo old
        let nUBucket := getNewBucket params am.nKey infoOld infoOld.source
        let target := if (am.vvNew nUBucket).card < newBucketSize then nUBucket else nOrigin
        return { setInfo am old { infoOld with fInTried := false, nRefCount := 1 } with
          vvNew := Function.update am.vvNew target (insert old (am.vvNew target))
          nNew := am.nNew + 1
          vvTried := Function.update am.vvTried nKBucket (vTried.set nPos nId) }

/-- The bucket of an entry, looked for from a drawn bucket on. -/
def findNewBucket (am : CAddrMan) (nId nRnd : ℕ) : Option (Fin newBucketCount) :=
  ((List.range newBucketCount).map fun n => Fin.ofNat newBucketCount (n + nRnd)).find?
    fun nB => nId ∈ am.vvNew nB

def good (am : CAddrMan) (addr : CService) (nTime : Int64) (draws : Draws) : Option CAddrMan :=
  match find am addr.toCNetAddr with
  | none => some am
  | some (nId, info) =>
    if info.toCService ≠ addr then some am
    else
      let info := { info with
        nLastSuccess := nTime, nLastTry := nTime, nTime := UInt32.ofInt nTime.toInt
        nAttempts := 0 }
      let am := setInfo am nId info
      if info.fInTried then some am
      else
        match findNewBucket am nId (getRandInt (draws 0) newBucketCount) with
        | none => some am
        | some nUBucket => makeTried params am info nId nUBucket fun i => draws (i + 1)

/-- `unsigned int` from `max((int64_t)0, time)`. -/
def clampTime (time : Int64) : UInt32 := UInt32.ofInt (max 0 time).toInt

/-- The entry `Add_` finds, with its time and services brought up to date. -/
def refresh (info : CAddrInfo) (addr : CAddress) (nTimePenalty nNow : Int64) : CAddrInfo :=
  let nUpdateInterval : Int64 :=
    if nNow - timeOf addr.nTime < 24 * 60 * 60 then 60 * 60 else 24 * 60 * 60
  let nTime := if addr.nTime ≠ 0 ∧
      (info.nTime = 0 ∨ timeOf info.nTime < timeOf addr.nTime - nUpdateInterval - nTimePenalty)
    then clampTime (timeOf addr.nTime - nTimePenalty) else info.nTime
  { info with nTime, nServices := info.nServices ||| addr.nServices }

/-- The end of `Add_`: one more reference, in the bucket of the source. -/
def addToNew (am : CAddrMan) (nId : ℕ) (info : CAddrInfo) (source : CNetAddr) (nNow : Int64)
    (draws : Draws) : Option CAddrMan := do
  let nUBucket := getNewBucket params am.nKey info source
  if nId ∈ am.vvNew nUBucket then return am
  else
    let am := setInfo am nId { info with nRefCount := info.nRefCount + 1 }
    let am ← (if (am.vvNew nUBucket).card = newBucketSize then shrinkNew am nUBucket nNow draws
      else some am)
    return { am with
      vvNew := Function.update am.vvNew nUBucket (insert nId (am.vvNew nUBucket)) }

def add (am : CAddrMan) (addr : CAddress) (source : CNetAddr) (nTimePenalty nNow : Int64)
    (draws : Draws) : Option (CAddrMan × Bool) :=
  if !params.isRoutable addr.toCNetAddr then some (am, false)
  else
    match find am addr.toCNetAddr with
    | some (nId, found) =>
      let info := refresh found addr nTimePenalty nNow
      let am := setInfo am nId info
      if addr.nTime = 0 ∨ (info.nTime ≠ 0 ∧ addr.nTime ≤ info.nTime) then some (am, false)
      else if info.fInTried then some (am, false)
      else if info.nRefCount = newBucketsPerAddress then some (am, false)
      else
        let nFactor := 2 ^ info.nRefCount.toNat
        if nFactor > 1 ∧ getRandInt (draws 0) nFactor ≠ 0 then some (am, false)
        else (addToNew params am nId info source nNow fun i => draws (i + 1)).map (·, false)
    | none =>
      let nId := am.nIdCount
      let created := create am addr source
      let info := { newAddrInfo addr source with
        nRandomPos := some am.vRandom.length
        nTime := clampTime (timeOf addr.nTime - nTimePenalty) }
      let am := { setInfo created nId info with nNew := created.nNew + 1 }
      (addToNew params am nId info source nNow fun i => draws (i + 1)).map (·, true)

def attempt (am : CAddrMan) (addr : CService) (nTime : Int64) : CAddrMan :=
  match find am addr.toCNetAddr with
  | none => am
  | some (nId, info) =>
    if info.toCService ≠ addr then am
    else setInfo am nId { info with nLastTry := nTime, nAttempts := info.nAttempts + 1 }

def connected (am : CAddrMan) (addr : CService) (nTime : Int64) : CAddrMan :=
  match find am addr.toCNetAddr with
  | none => am
  | some (nId, info) =>
    if info.toCService ≠ addr then am
    else if nTime - timeOf info.nTime > 20 * 60 then
      setInfo am nId { info with nTime := UInt32.ofInt nTime.toInt }
    else am

def getAddrLoop (draws : Draws) :
    ℕ → ℕ → CAddrMan → List CAddress → Option (CAddrMan × List CAddress)
  | 0, _, am, vAddr => some (am, vAddr)
  | nNodes + 1, n, am, vAddr => do
      let nRndPos := getRandInt (draws n) (am.vRandom.length - n) + n
      let am ← swapRandom am n nRndPos
      let nId ← am.vRandom[n]?
      let info ← am.mapInfo nId
      getAddrLoop draws nNodes (n + 1) am (vAddr ++ [info.toCAddress])

def getAddr (am : CAddrMan) (draws : Draws) : Option (CAddrMan × List CAddress) :=
  getAddrLoop draws (min (getAddrMaxPct * am.vRandom.length / 100) getAddrMax) 0 am []

end Operations

/-! ## Calls -/

inductive Call where
  | add (addr : CAddress) (source : CNetAddr) (nTimePenalty nNow : Int64) (draws : Draws)
  | good (addr : CService) (nTime : Int64) (draws : Draws)
  | attempt (addr : CService) (nTime : Int64)
  | connected (addr : CService) (nTime : Int64)
  | getAddr (draws : Draws)

def call (params : Params) (am : CAddrMan) : Call → Option CAddrMan
  | .add addr source nTimePenalty nNow draws =>
    (add params am addr source nTimePenalty nNow draws).map Prod.fst
  | .good addr nTime draws => good params am addr nTime draws
  | .attempt addr nTime => some (attempt am addr nTime)
  | .connected addr nTime => some (connected am addr nTime)
  | .getAddr draws => (getAddr am draws).map Prod.fst

end SynergyNet.AddrMan
