import Mathlib.Data.Option.Basic
import SynergyFormal.Lib.Session
import SynergyFormal.Primitives.Codec

/-!
# Data streams as byte queues

`CDataStream` of `serialize.h` keeps the bytes already read in front of its 32-bit read
position, reuses that room for an insertion and gives it up once all is read.  Several
streams are used side by side here, each beside a queue that takes the same calls.
`a << b` appends the whole buffer of `b`, where `a += b` appends what is left to read.
-/

set_option autoImplicit false

namespace SynergyData.DataStream

open SynergyLib
open Wire Codec Session
open List hiding length

/-- One byte, `erase(begin())`, or a range from there, of bytes that are in the stream. -/
def erase (count : Nat) (s : CDataStream) : CDataStream :=
  if s.vch.length = s.nReadPos.toNat + count then ⟨[], 0⟩
  else { s with nReadPos := UInt32.ofNat (s.nReadPos.toNat + count) }

def ignore (nSize : Nat) (s : CDataStream) : Option CDataStream :=
  let nReadPosNext := s.nReadPos + UInt32.ofNat nSize
  if s.vch.length < nReadPosNext.toNat then none
  else if s.vch.length = nReadPosNext.toNat then some ⟨[], 0⟩
  else some { s with nReadPos := nReadPosNext }

/-- `insert(begin(), first, last)`. -/
def insert (bytes : Bytes) (s : CDataStream) : CDataStream :=
  let nSize := UInt32.ofNat bytes.length
  if nSize ≤ s.nReadPos then
    -- special case for inserting at the front when there's room
    let nReadPos := s.nReadPos - nSize
    ⟨s.vch.take nReadPos.toNat ++ (bytes ++ s.vch.drop (nReadPos.toNat + bytes.length)), nReadPos⟩
  else ⟨s.vch.take s.nReadPos.toNat ++ (bytes ++ s.unread), s.nReadPos⟩

def write (bytes : Bytes) (s : CDataStream) : CDataStream := { s with vch := s.vch ++ bytes }

def compact (s : CDataStream) : CDataStream := ⟨s.unread, 0⟩

/-- `append` is `operator+=`, `serialize` is `operator<<` of a stream. -/
inductive Op (Stream : Type) where
  | write (bytes : Bytes)
  | read (nSize : Nat)
  | ignore (nSize : Nat)
  | insert (bytes : Bytes)
  | erase (count : Nat)
  | compact
  | append (b : Stream)
  | serialize (b : Stream)

variable {Stream : Type}

/-- What a call hands out and the stream it leaves; `none` if it throws. -/
def perform (streams : Stream → CDataStream) (s : CDataStream) :
    Op Stream → Option (Bytes × CDataStream)
  | .write bytes => some ([], write bytes s)
  | .read nSize => s.read nSize
  | .ignore nSize => (ignore nSize s).map ([], ·)
  | .insert bytes => some ([], insert bytes s)
  | .erase count => some ([], erase count s)
  | .compact => some ([], compact s)
  | .append b => some ([], write (streams b).unread s)
  | .serialize b => some ([], write (streams b).vch s)

def ideal (queues : Stream → Bytes) (queue : Bytes) : Op Stream → Option (Bytes × Bytes)
  | .write bytes => some ([], queue ++ bytes)
  | .read nSize =>
    if queue.length < nSize then none else some (queue.take nSize, queue.drop nSize)
  | .ignore nSize => if queue.length < nSize then none else some ([], queue.drop nSize)
  | .insert bytes => some ([], bytes ++ queue)
  | .erase count => some ([], queue.drop count)
  | .compact => some ([], queue)
  | .append b | .serialize b => some ([], queue ++ queues b)

/-- The read position does not wrap, and a stream that is written into another has not
been read from. -/
def Fits (streams : Stream → CDataStream) (s : CDataStream) : Op Stream → Prop
  | .read nSize | .ignore nSize => s.nReadPos.toNat + nSize < 2 ^ 32
  | .insert bytes => bytes.length < 2 ^ 32
  | .erase count => count ≤ s.unread.length ∧ s.nReadPos.toNat + count < 2 ^ 32
  | .serialize b => (streams b).nReadPos = 0
  | _ => True

/-! ## One call -/

def Answers (done : Bytes × CDataStream) (asked : Bytes × Bytes) : Prop :=
  done.1 = asked.1 ∧ done.2.Holds 0 asked.2

section Calls
variable {s : CDataStream} {queue : Bytes}

theorem holds_of_front (front : Bytes) {nReadPos : UInt32} (room : front.length = nReadPos.toNat) :
    CDataStream.Holds ⟨front ++ queue, nReadPos⟩ 0 queue where
  unread := by rw [CDataStream.unread, ← room, drop_left]
  position := by rw [← room, length_append]; omega
  counter := nReadPos.toNat_lt

theorem holds_write (held : s.Holds 0 queue) (bytes : Bytes) :
    (write bytes s).Holds 0 (queue ++ bytes) where
  unread := by
    rw [← held.unread]
    exact drop_append_of_le_length held.position
  position := held.position.trans (by simp [write])
  counter := held.counter

theorem holds_insert (held : s.Holds 0 queue) {bytes : Bytes} (short : bytes.length < 2 ^ 32) :
    (insert bytes s).Holds 0 (bytes ++ queue) := by
  have size := toNat_size short
  simp only [insert, ← held.unread]
  split
  case isTrue room =>
    have start := UInt32.toNat_sub_of_le _ _ room
    have fits := UInt32.le_iff_toNat_le.mp room
    rw [size] at start fits
    have kept : (s.nReadPos - UInt32.ofNat bytes.length).toNat + bytes.length =
        s.nReadPos.toNat := by omega
    rw [kept]
    apply holds_of_front
    have inside := held.position
    rw [length_take]
    omega
  case isFalse => exact holds_of_front _ (length_take_of_le held.position)

section Position
variable {nSize : Nat} (counter : s.nReadPos.toNat + nSize < 2 ^ 32)
include counter

theorem toNat_next : (s.nReadPos + UInt32.ofNat nSize).toNat = s.nReadPos.toNat + nSize := by
  rw [UInt32.toNat_add, UInt32.toNat_ofNat']
  omega

theorem ignore_refines (held : s.Holds 0 queue) (out : Bytes) :
    Option.Rel Answers ((ignore nSize s).map (out, ·))
      (if queue.length < nSize then none else some (out, queue.drop nSize)) := by
  have position := held.position
  have left : queue.length = s.vch.length - s.nReadPos.toNat := by
    rw [← held.unread, CDataStream.unread, length_drop]
  have next := toNat_next counter
  simp only [ignore, next]
  split_ifs with beyond short last
  · exact .none
  · omega
  · omega
  · rw [drop_eq_nil_of_le (by omega)]
    exact .some ⟨rfl, holds_of_front [] rfl⟩
  · omega
  · refine .some ⟨rfl, ?_, ?_, UInt32.toNat_lt _⟩
    · simp only [CDataStream.unread, next, ← held.unread, drop_drop]
    · simp only [next]
      omega

/-- Reading hands out what ignoring passes over. -/
theorem read_eq_ignore (held : s.Holds 0 queue) :
    s.read nSize = (ignore nSize s).map (queue.take nSize, ·) := by
  have position := held.position
  have left : s.unread.length = s.vch.length - s.nReadPos.toNat := length_drop
  simp only [CDataStream.read, ignore, toNat_next counter, ← held.unread]
  split_ifs with beyond short
  · rfl
  · omega
  · omega
  · rfl
  · rfl

theorem ignore_eq_erase (held : s.Holds 0 queue) (present : nSize ≤ s.unread.length) :
    ignore nSize s = some (erase nSize s) := by
  have position := held.position
  have left : s.unread.length = s.vch.length - s.nReadPos.toNat := length_drop
  rw [ignore, erase, toNat_next counter, if_neg (by omega)]
  split_ifs
  · rfl
  · simp

end Position

theorem perform_refines {streams : Stream → CDataStream} {queues : Stream → Bytes}
    (held : s.Holds 0 queue) (all : ∀ b, (streams b).Holds 0 (queues b)) {op : Op Stream}
    (fits : Fits streams s op) :
    Option.Rel Answers (perform streams s op) (ideal queues queue op) := by
  cases op with
  | write bytes => exact .some ⟨rfl, holds_write held bytes⟩
  | read nSize =>
    rw [perform, read_eq_ignore fits held]
    exact ignore_refines fits held _
  | ignore nSize => exact ignore_refines fits held []
  | insert bytes => exact .some ⟨rfl, holds_insert held fits⟩
  | erase count =>
    obtain ⟨present, counter⟩ := fits
    have passed := ignore_refines counter held []
    rwa [ignore_eq_erase counter held present, if_neg (by rw [← held.unread]; omega)] at passed
  | compact => exact .some ⟨rfl, held.unread ▸ holds_of_front [] rfl⟩
  | append b =>
    rw [perform, (all b).unread]
    exact .some ⟨rfl, holds_write held _⟩
  | serialize b =>
    have whole : (streams b).vch = queues b := by
      rw [← (all b).unread, CDataStream.unread, show (streams b).nReadPos = 0 from fits]
      rfl
    rw [perform, whole]
    exact .some ⟨rfl, holds_write held _⟩

end Calls

/-! ## Runs -/

variable [DecidableEq Stream]

/-- A call that throws leaves everything as it was. -/
def settle {S : Type} (states : Stream → S) (a : Stream) : Option (Bytes × S) → Stream → S
  | none => states
  | some (_, s) => Function.update states a s

abbrev Side (Stream : Type) := (Stream → CDataStream) × (Stream → Bytes)

/-- The call `op` on stream `a` and on the queue beside it. -/
def step (state : Side Stream) : Stream × Op Stream → Option (Side Stream)
  | (a, op) => some (settle state.1 a (perform state.1 (state.1 a) op),
      settle state.2 a (ideal state.2 (state.2 a) op))

def Fitting (state : Side Stream) (call : Stream × Op Stream) : Prop :=
  Fits state.1 (state.1 call.1) call.2

theorem holds_settle {streams : Stream → CDataStream} {queues : Stream → Bytes}
    (all : ∀ b, (streams b).Holds 0 (queues b)) (a : Stream) {done : Option (Bytes × CDataStream)}
    {asked : Option (Bytes × Bytes)} (answers : Option.Rel Answers done asked) (b : Stream) :
    (settle streams a done b).Holds 0 (settle queues a asked b) := by
  cases answers with
  | none => exact all b
  | some same =>
    by_cases here : b = a
    · subst here
      simpa [settle] using same.2
    · simpa [settle, here] using all b

theorem map_eq_of_answers {done : Option (Bytes × CDataStream)} {asked : Option (Bytes × Bytes)}
    (answers : Option.Rel Answers done asked) :
    done.map (Prod.map id CDataStream.unread) = asked := by
  cases answers with
  | none => rfl
  | some same => exact congrArg some (Prod.ext same.1 same.2.unread)

theorem unread_write_vch_iff {s b : CDataStream} {queue other : Bytes} (held : s.Holds 0 queue)
    (read : b.Holds 0 other) : (write b.vch s).unread = queue ++ other ↔ b.nReadPos = 0 := by
  rw [(holds_write held b.vch).unread, append_cancel_left_eq, ← read.unread, CDataStream.unread,
    ← UInt32.toNat_inj]
  constructor
  · intro whole
    have position := read.position
    have lengths := congrArg List.length whole
    rw [length_drop] at lengths
    simp only [UInt32.toNat_zero]
    omega
  · intro start
    rw [start]
    rfl

/-- Along every run of calls that fit, each stream holds what its queue holds and hands out
what its queue hands out.  Only a stream that has been read from is written differently. -/
theorem streams_queue_bytes {start : Stream → CDataStream} {state : Side Stream}
    (sound : ∀ a, (start a).nReadPos.toNat ≤ (start a).vch.length)
    (reached : Reached step Fitting (start, fun a => (start a).unread) state) :
    (∀ a, (state.1 a).unread = state.2 a) ∧
      (∀ a op, Fitting state (a, op) →
        (perform state.1 (state.1 a) op).map (Prod.map id CDataStream.unread) =
          ideal state.2 (state.2 a) op) ∧
      ∀ a b, (write (state.1 b).vch (state.1 a)).unread = state.2 a ++ state.2 b ↔
        (state.1 b).nReadPos = 0 := by
  have all := reached.invariant (fun state => ∀ a, (state.1 a).Holds 0 (state.2 a))
    (fun a => ⟨rfl, sound a, UInt32.toNat_lt _⟩) ?_
  · exact ⟨fun a => (all a).unread,
      fun a op fits => map_eq_of_answers (perform_refines (all a) all fits),
      fun a b => unread_write_vch_iff (all a) (all b)⟩
  · rintro state ⟨a, op⟩ next all fits moved
    cases moved
    exact holds_settle all a (perform_refines (all a) all fits)

/-- Stream `true` holds two bytes, stream `false` nothing. -/
def twoBytes (named : Bool) : CDataStream := if named then ⟨[7, 8], 0⟩ else ⟨[], 0⟩

/-- Bytes are moved over, the rest read and others inserted where they stood. -/
theorem streams_queue_bytes_moved :
    ∃ state : Side Bool, (∀ a, (state.1 a).unread = state.2 a) ∧ state.2 true = [5, 8] ∧
      state.2 false = [7, 8] := by
  have start : Reached step Fitting (twoBytes, fun a => (twoBytes a).unread) _ := .refl
  have moved := start.call (false, Op.serialize true) rfl rfl
  have read := moved.call (true, Op.read 1) (show _ < 2 ^ 32 by decide) rfl
  have inserted := read.call (true, Op.insert [5]) (show _ < 2 ^ 32 by decide) rfl
  exact ⟨_, (streams_queue_bytes (by decide) inserted).1, by decide, by decide⟩

/-- Written after one of its bytes was read, a stream is written whole. -/
theorem serialize_repeats_read :
    ([(true, .read 1), (false, .serialize true)].foldlM step
        (twoBytes, fun a => (twoBytes a).unread)).map
        (fun state => ((state.1 true).unread, (state.1 false).unread, state.2 false)) =
      some ([8], [7, 8], [8]) := by
  decide

end SynergyData.DataStream
