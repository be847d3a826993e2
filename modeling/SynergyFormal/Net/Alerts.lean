import Mathlib.Data.List.Nodup

/-!
# Alerts

`CAlert::ProcessAlert` (`alert.cpp`) and the map of alerts it keeps.  What it tells the user
interface and the commands it starts are left out.
-/

set_option autoImplicit false

namespace SynergyNet.Alerts

structure CUnsignedAlert where
  nExpiration : Int64
  nID : Int32
  nCancel : Int32
  setCancel : List Int32
  nMinVer : Int32
  nMaxVer : Int32
  setSubVer : List String
  nPriority : Int32
  nAlertType : Int32
  strStatusBar : String

structure CAlert extends CUnsignedAlert where
  vchMsg : List UInt8
  vchSig : List UInt8

/-- The alert key, the hash of a message and how its fields are unserialized over those the
alert has: a message of the previous version leaves `nAlertType` as the command set it. -/
structure Scheme (Hash : Type) where
  verify : List UInt8 → List UInt8 → Bool
  unserialize : List UInt8 → CUnsignedAlert → Option CUnsignedAlert
  hash : List UInt8 → Hash

structure MapAlerts (Hash : Type) where
  items : List (Hash × CAlert)
  distinct : (items.map Prod.fst).Nodup

def maxInt : Int32 := 2147483647

abbrev IsInEffect (now : Int64) (alert : CAlert) : Prop := now < alert.nExpiration

/-- Alerts must be of same type for one to cancel the other. -/
abbrev Cancels (now : Int64) (this alert : CAlert) : Prop :=
  IsInEffect now this ∧ (alert.nID ≤ this.nCancel ∨ alert.nID ∈ this.setCancel) ∧
    alert.nAlertType = this.nAlertType

/-- What an alert with the reserved `nID` must be, or it is ignored. -/
abbrev KeyCompromised (alert : CAlert) : Prop :=
  alert.nExpiration = maxInt.toInt64 ∧ alert.nCancel = maxInt - 1 ∧ alert.nMinVer = 0 ∧
    alert.nMaxVer = maxInt ∧ alert.setSubVer = [] ∧ alert.nPriority = maxInt ∧
    alert.strStatusBar = "URGENT: Alert key compromised, upgrade required"

section Calls
variable {Hash : Type} (scheme : Scheme Hash) (mapAlerts : MapAlerts Hash) (call : Int64 × CAlert)

/-- Cancelled and expired alerts leave the map. -/
def MapAlerts.cancel (now : Int64) (this : CAlert) : MapAlerts Hash :=
  ⟨mapAlerts.items.filter fun item => ¬Cancels now this item.2 ∧ IsInEffect now item.2,
    mapAlerts.distinct.sublist (List.filter_sublist.map Prod.fst)⟩

variable [DecidableEq Hash]

/-- `std::map::insert` keeps what is there under the same hash. -/
def MapAlerts.insert (hash : Hash) (alert : CAlert) : MapAlerts Hash :=
  if known : hash ∈ mapAlerts.items.map Prod.fst then mapAlerts
  else ⟨(hash, alert) :: mapAlerts.items, List.nodup_cons.mpr ⟨known, mapAlerts.distinct⟩⟩

/-- `none` also for a message that does not unserialize. -/
def checkSignature (alert : CAlert) : Option CAlert :=
  if scheme.verify alert.vchMsg alert.vchSig then
    (scheme.unserialize alert.vchMsg alert.toCUnsignedAlert).map fun fields =>
      { alert with toCUnsignedAlert := fields }
  else none

/-- With the time `GetAdjustedTime` gives during the call. -/
def processAlert : Bool × MapAlerts Hash :=
  match checkSignature scheme call.2 with
  | none => (false, mapAlerts)
  | some this =>
    if ¬IsInEffect call.1 this then (false, mapAlerts)
    else if this.nID = maxInt ∧ ¬KeyCompromised this then (false, mapAlerts)
    else
      let remaining := mapAlerts.cancel call.1 this
      if ∃ item ∈ remaining.items, Cancels call.1 item.2 this then (false, remaining)
      else (true, remaining.insert (scheme.hash this.vchMsg) this)

/-- The map when the node starts. -/
def noAlerts : MapAlerts Hash := ⟨[], List.nodup_nil⟩

def run (calls : List (Int64 × CAlert)) : MapAlerts Hash :=
  calls.foldl (fun mapAlerts call => (processAlert scheme mapAlerts call).2) mapAlerts

/-- The call accepts an alert with this `nID`. -/
abbrev Accepts (nID : Int32) : Prop :=
  (processAlert scheme mapAlerts call).1 = true ∧
    ∃ this ∈ checkSignature scheme call.2, this.nID = nID

/-! ## The key-compromise alert -/

/-- An alert of the one type that spares the key-compromise alert. -/
abbrev Sparing (nAlertType : Int32) (call : Int64 × CAlert) : Prop :=
  call.1 < maxInt.toInt64 ∧ ∀ this ∈ checkSignature scheme call.2, this.nAlertType = nAlertType ∧
    (this.nID = maxInt ∨ this.nCancel < maxInt ∧ maxInt ∉ this.setCancel)

/-- What holds of every alert in the map while all calls are of one type. -/
def OfType (nAlertType : Int32) (alert : CAlert) : Prop :=
  alert.nAlertType = nAlertType ∧ (alert.nID = maxInt → KeyCompromised alert)

abbrev MapAlerts.All (P : CAlert → Prop) : Prop := ∀ item ∈ mapAlerts.items, P item.2

/-- What holds of the map once a key-compromise alert was accepted. -/
def Final : Prop := mapAlerts.items ≠ [] ∧ mapAlerts.All (·.nID = maxInt)

variable {scheme mapAlerts call} {nAlertType : Int32} {this : CAlert}

theorem le_pred_of_ne {nID : Int32} (apart : nID ≠ maxInt) : nID ≤ maxInt - 1 := by
  have bound := nID.toInt_lt
  have different : nID.toInt ≠ 2147483647 := fun same => apart (Int32.toInt_inj.mp same)
  exact Int32.le_iff_toInt_le.mpr (show nID.toInt ≤ 2147483646 by omega)

omit [DecidableEq Hash] in
theorem mem_cancel {now : Int64} {item : Hash × CAlert} :
    item ∈ (mapAlerts.cancel now this).items ↔
      item ∈ mapAlerts.items ∧ ¬Cancels now this item.2 ∧ IsInEffect now item.2 := by
  simp only [MapAlerts.cancel, List.mem_filter, decide_eq_true_eq]

theorem insert_rule (P : CAlert → Prop) (old : mapAlerts.All P) (new : P this) (hash : Hash) :
    (mapAlerts.insert hash this).items ≠ [] ∧ (mapAlerts.insert hash this).All P := by
  unfold MapAlerts.insert
  split
  case isTrue known =>
    obtain ⟨item, member, _⟩ := List.mem_map.mp known
    exact ⟨List.ne_nil_of_mem member, old⟩
  case isFalse => exact ⟨List.cons_ne_nil _ _, List.forall_mem_cons.mpr ⟨new, old⟩⟩

omit [DecidableEq Hash] in
/-- Another alert finds the key-compromise alert in the map and is cancelled by it. -/
theorem final_cancels (sparing : Sparing scheme nAlertType call)
    (oneType : mapAlerts.All (OfType nAlertType)) (final : Final mapAlerts)
    (signed : checkSignature scheme call.2 = some this) (apart : this.nID ≠ maxInt) :
    ∃ item ∈ (mapAlerts.cancel call.1 this).items, Cancels call.1 item.2 this := by
  obtain ⟨item, member⟩ := List.exists_mem_of_ne_nil _ final.1
  have reserved := final.2 item member
  obtain ⟨same, compromised⟩ := oneType item member
  obtain ⟨expires, cancels, _⟩ := compromised reserved
  obtain ⟨type, spares⟩ := sparing.2 this signed
  obtain ⟨low, outside⟩ := spares.resolve_left apart
  have effect : IsInEffect call.1 item.2 := by
    rw [IsInEffect, expires]
    exact sparing.1
  have spared : ¬Cancels call.1 this item.2 := by
    rintro ⟨_, below | listed, _⟩
    · exact Int32.not_le.mpr low (reserved ▸ below)
    · exact outside (reserved ▸ listed)
  have below : this.nID ≤ item.2.nCancel := cancels ▸ le_pred_of_ne apart
  exact ⟨item, mem_cancel.mpr ⟨member, spared, effect⟩, effect, Or.inl below, type.trans same.symm⟩

/-- What one call does.  A key-compromise alert cancels every other `nID` of its type. -/
theorem processAlert_step (sparing : Sparing scheme nAlertType call)
    (oneType : mapAlerts.All (OfType nAlertType)) :
    (processAlert scheme mapAlerts call).2.All (OfType nAlertType) ∧
      (Final mapAlerts ∨ Accepts scheme mapAlerts call maxInt →
        Final (processAlert scheme mapAlerts call).2) ∧
      (Final mapAlerts → ∀ nID, Accepts scheme mapAlerts call nID → nID = maxInt) := by
  unfold Accepts processAlert
  cases signed : checkSignature scheme call.2 with
  | none => exact ⟨oneType, by simp, by simp⟩
  | some this =>
    have type := (sparing.2 this signed).1
    have kept : (mapAlerts.cancel call.1 this).All (OfType nAlertType) :=
      fun item member => oneType item (mem_cancel.mp member).1
    dsimp only
    split_ifs with effect ignored cancelled
    · exact ⟨oneType, by simp, by simp⟩
    · obtain ⟨item, stays, _⟩ := cancelled
      refine ⟨kept, fun final => ⟨List.ne_nil_of_mem stays, fun other member => ?_⟩, by simp⟩
      exact (final.resolve_right (by simp)).2 other (mem_cancel.mp member).1
    · have reserved (same : this.nID = maxInt) : KeyCompromised this :=
        not_not.mp fun other => ignored ⟨same, other⟩
      have others (same : this.nID = maxInt) :
          (mapAlerts.cancel call.1 this).All (·.nID = maxInt) := by
        intro item member
        obtain ⟨old, spared, _⟩ := mem_cancel.mp member
        by_contra apart
        have below : item.2.nID ≤ this.nCancel := (reserved same).2.1 ▸ le_pred_of_ne apart
        exact spared ⟨effect, Or.inl below, (oneType item old).1.trans type.symm⟩
      have accepted (final : Final mapAlerts) : this.nID = maxInt :=
        not_not.mp fun apart => cancelled (final_cancels sparing oneType final signed apart)
      refine ⟨(insert_rule _ kept ⟨type, reserved⟩ _).2, fun reached => ?_, ?_⟩
      · have same : this.nID = maxInt := reached.elim accepted (by simp)
        exact insert_rule (·.nID = maxInt) (others same) same _
      · rintro final nID ⟨_, _, found, rfl⟩
        exact Option.some.inj found ▸ accepted final
    · exact ⟨oneType, by simp, by simp⟩

theorem run_rule (calls : List (Int64 × CAlert))
    (sparing : ∀ call ∈ calls, Sparing scheme nAlertType call)
    (oneType : mapAlerts.All (OfType nAlertType)) :
    (run scheme mapAlerts calls).All (OfType nAlertType) ∧
      (Final mapAlerts → Final (run scheme mapAlerts calls)) := by
  induction calls generalizing mapAlerts with
  | nil => exact ⟨oneType, id⟩
  | cons call calls ih =>
    obtain ⟨first, others⟩ := List.forall_mem_cons.mp sparing
    obtain ⟨next, final, _⟩ := processAlert_step first oneType
    obtain ⟨last, stays⟩ := ih others next
    exact ⟨last, fun done => stays (final (Or.inl done))⟩

/-- While alerts of one type that spare it are processed, the key-compromise alert is final. -/
theorem keyCompromise_final (scheme : Scheme Hash) (nAlertType : Int32)
    (before later : List (Int64 × CAlert)) (call : Int64 × CAlert)
    (sparing : ∀ other ∈ before ++ call :: later, Sparing scheme nAlertType other)
    (accepts : Accepts scheme (run scheme noAlerts before) call maxInt) :
    (run scheme noAlerts (before ++ call :: later)).All (·.nID = maxInt) ∧
      ∀ (next : Int64 × CAlert) (nID : Int32), Sparing scheme nAlertType next →
        Accepts scheme (run scheme noAlerts (before ++ call :: later)) next nID →
          nID = maxInt := by
  obtain ⟨first, rest⟩ := List.forall_mem_append.mp sparing
  obtain ⟨now, others⟩ := List.forall_mem_cons.mp rest
  have none : (noAlerts : MapAlerts Hash).All (OfType nAlertType) := fun _ member => nomatch member
  obtain ⟨oneType, final, _⟩ := processAlert_step now (run_rule before first none).1
  obtain ⟨last, stays⟩ := run_rule later others oneType
  have final := stays (final (Or.inr accepts))
  rw [run, List.foldl_append]
  exact ⟨final.2, fun next nID spares => (processAlert_step spares last).2.2 final nID⟩

end Calls

/-- Every signature is right, and every message is of the previous version. -/
def plainScheme : Scheme (List UInt8) := ⟨fun _ _ => true, fun _ fields => some fields, id⟩

/-- Of type `ALERT_CLASSIC`. -/
def compromised : Int64 × CAlert :=
  (1440000000, ⟨⟨2147483647, maxInt, maxInt - 1, [], 0, maxInt, [], maxInt, 1,
    "URGENT: Alert key compromised, upgrade required"⟩, [0], []⟩)

/-- Another alert, with this `nCancel` and of this type. -/
def allIsWell (nCancel nAlertType : Int32) : Int64 × CAlert :=
  (1440000000, ⟨⟨2000000000, 5, nCancel, [], 0, maxInt, [], 0, nAlertType, "OK"⟩, [1], []⟩)

theorem keyCompromise_final_classic : Accepts plainScheme noAlerts compromised maxInt ∧
    (run plainScheme noAlerts [compromised, allIsWell 4 1]).All (·.nID = maxInt) := by
  have accepts : Accepts plainScheme noAlerts compromised maxInt := by decide +kernel
  exact ⟨accepts, (keyCompromise_final plainScheme 1 [] [allIsWell 4 1] compromised
    (by decide +kernel) accepts).1⟩

/-- An `ALERT_PUMP` alert stays beside it, and one that cancels every `nID` replaces it. -/
theorem keyCompromise_overridden : Accepts plainScheme noAlerts compromised maxInt ∧
    Accepts plainScheme (run plainScheme noAlerts [compromised]) (allIsWell 4 2) 5 ∧
    Accepts plainScheme (run plainScheme noAlerts [compromised]) (allIsWell maxInt 1) 5 ∧
    (run plainScheme noAlerts [compromised, allIsWell maxInt 1]).All (·.nID = 5) ∧
    Accepts plainScheme (run plainScheme noAlerts [allIsWell 4 2]) compromised maxInt ∧
    ¬(run plainScheme noAlerts [allIsWell 4 2, compromised]).All (·.nID = maxInt) := by
  decide +kernel

end SynergyNet.Alerts
