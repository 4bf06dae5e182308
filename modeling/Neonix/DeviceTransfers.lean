import Neonix.Console
import Neonix.DeviceFiles
import Neonix.FileOffsets
import Neonix.Pipes

/-! # What the drivers return

    `device_read` and `device_write` pass on what a driver returns.  Next to it
    stands what the driver moved: the bytes it stored to the buffer of its caller,
    or how many it took from there.  A driver that waits goes on with what
    interrupts and other tasks have left by then; those are lists, and a call that
    has used up its list still waits. -/

namespace NeonixTransfers

open NeonixMachine NeonixOutcome NeonixByteBits NeonixFifo NeonixPipes NeonixConsole
open NeonixFileSystem (Halt EOF)
open NeonixBlockDevices (SECTOR_SIZE DEVICE_NR Place)
open NeonixFrames (never)

abbrev Answer (α : Type) : Type := Except Halt α

/-- A function that waits for nothing. -/
def now {α : Type} : Res α → Answer α
  | .ok a => .ok a
  | .error why => .error (.stopped why)

/-! ## Queues of bytes -/

/-- What a task finds behind its `task_block`: the queue, and whether the driver
    still has a waiter. -/
structure Arrival where
  fifo : Fifo
  waiter : Bool

/-- The inner loop of `keyboard_read` and `serial_read`; the latter asserts that
    there is no waiter. -/
def awaitByte (asserts : Bool) :
    (later : List Arrival) → (waiter : Bool) → Fifo → Answer (Fifo × Bool × List Arrival)
  | [], waiter, fifo =>
      if fifo.Empty then do
        now (check (asserts = false ∨ waiter = false))
        .error .outOfFuel
      else .ok (fifo, waiter, [])
  | arrival :: later, waiter, fifo =>
      if fifo.Empty then do
        now (check (asserts = false ∨ waiter = false))
        awaitByte asserts later arrival.waiter arrival.fifo
      else .ok (fifo, waiter, arrival :: later)

/-- The loop of `keyboard_read` and `serial_read`, with the bytes read so far. -/
def fifoLoop (asserts : Bool) : (left : Nat) → (later : List Arrival) → (waiter : Bool) → Fifo →
    (buf : List Byte) → Answer (List Byte × Fifo)
  | 0, _, _, fifo, buf => .ok (buf, fifo)
  | left + 1, later, waiter, fifo, buf => do
      let (fifo, waiter, later) ← awaitByte asserts later waiter fifo
      let (byte, fifo) ← now (fifoGet fifo)
      fifoLoop asserts left later waiter fifo (buf ++ [byte])

/-- The loop of `serial_write`: what the status register says each time it is looked
    at, the bytes left and those sent. -/
def lineLoop : (ready : List Bool) → (left sent : List Byte) → Answer (List Byte)
  | _, [], sent => .ok sent
  | [], _ :: _, _ => .error .outOfFuel
  | true :: ready, byte :: left, sent => lineLoop ready left (sent ++ [byte])
  | false :: ready, byte :: left, sent => lineLoop ready (byte :: left) sent

/-- The loop of `pipe_read` in task `t`; `later` is how the task finds the pipe when
    it goes on after a wait. -/
def pipeReadLoop (t : Nat) :
    (left : Nat) → (later : List Pipe) → Pipe → (buf : List Byte) → Answer (List Byte × Pipe)
  | 0, _, pipe, buf => .ok (buf, pipe)
  | left + 1, later, pipe, buf => do
      match ← now (pipeReadTurn pipe t false), later with
      | .takes pipe byte _, later => pipeReadLoop t left later pipe (buf ++ [byte])
      | .waits _, [] => .error .outOfFuel
      | .waits _, pipe :: later =>
          match ← now (pipeReadTurn pipe t true) with
          | .takes pipe byte _ => pipeReadLoop t left later pipe (buf ++ [byte])
          | .waits _ => .error .outOfFuel

/-- The loop of `pipe_write`, with the bytes put so far. -/
def pipeWriteLoop (t : Nat) :
    (left : List Byte) → (later : List Pipe) → Pipe → (put : List Byte) → Answer (List Byte × Pipe)
  | [], _, pipe, put => .ok (put, pipe)
  | byte :: left, later, pipe, put => do
      match ← now (pipeWriteTurn pipe t byte false), later with
      | .puts pipe _, later => pipeWriteLoop t left later pipe (put ++ [byte])
      | .waits _, [] => .error .outOfFuel
      | .waits _, pipe :: later =>
          match ← now (pipeWriteTurn pipe t byte true) with
          | .puts pipe _ => pipeWriteLoop t left later pipe (put ++ [byte])
          | .waits _ => .error .outOfFuel

/-! ## Devices -/

/-- The functions installed in a `device_t`, with its `ptr`. -/
inductive Driver where
  | console
  | keyboard
  | serial (port : Nat)
  | tty (rdev wdev : Nat)
  | block (driver : NeonixBlockDevices.Driver)

/-- The devices and pipes, and what the tasks that wait for them will find. -/
structure Devices where
  /-- `none` is a device of type `DEV_NULL` -/
  device : Nat → Option Driver
  console : Console
  /-- the queue of the keyboard -/
  fifo : Fifo
  rx_fifo : Nat → Fifo
  rx_waiter : Nat → Bool
  blocks : NeonixBlockDevices.State
  pipe : Nat → Pipe
  arrivals : List Arrival
  ready : List Bool
  pipes : List Pipe

/-- The first bytes of a buffer. -/
def taken (buf : Nat → Byte) (n : Nat) : List Byte := (List.range n).map buf

/-- The bytes that go through a place. -/
def placeSize : Place → Nat
  | .sector _ _ => SECTOR_SIZE
  | .byte _ => 1

/-- The bytes a driver has moved between two states. -/
def movedBytes (s t : NeonixBlockDevices.State) : Nat :=
  ((t.touched.drop s.touched.length).map placeSize).sum

/-- What the drivers of block devices return: those of disks zero, those of ramdisks
    their count. -/
def blockResult : NeonixBlockDevices.Driver → BitVec 8 → Int
  | .disk .., _ | .part _, _ => 0
  | .ramdisk _, count => count.toNat

/-- `keyboard_read`. -/
def keyboardRead (w : Devices) (count : BitVec 32) : Answer (Int × List Byte) := do
  let (buf, _) ← fifoLoop false count.toNat w.arrivals false w.fifo []
  return (count.toInt, buf)

/-- `serial_read`. -/
def serialRead (w : Devices) (port : Nat) (count : BitVec 32) : Answer (Int × List Byte) := do
  let (buf, _) ← fifoLoop true count.toNat w.arrivals (w.rx_waiter port) (w.rx_fifo port) []
  return ((BitVec.ofNat 32 buf.length).toInt, buf)

/-- `serial_write`. -/
def serialWrite (w : Devices) (buf : Nat → Byte) (count : BitVec 32) : Answer (Int × Nat) := do
  let sent ← lineLoop w.ready (taken buf count.toNat) []
  return ((BitVec.ofNat 32 sent.length).toInt, sent.length)

/-- `device->read`; `EOF` where it is null.  A tty that reads from a tty calls itself
    for ever. -/
def Driver.read (w : Devices) (count idx : BitVec 32) : Driver → Answer (Int × List Byte)
  | .console => .ok (EOF, [])
  | .keyboard => keyboardRead w count
  | .serial port => serialRead w port count
  | .tty _ _ => .error .outOfFuel
  | .block driver => do
      let (bytes, _) ← now (driver.read (count.setWidth 8) idx w.blocks)
      return (blockResult driver (count.setWidth 8), bytes)

/-- `device->write`. -/
def Driver.write (w : Devices) (buf : Nat → Byte) (count idx : BitVec 32) :
    Driver → Answer (Int × Nat)
  | .console => do
      let bytes := taken buf count.toNat
      let (nr, _) ← now (consoleWrite w.console bytes)
      return (nr.toInt, bytes.length)
  | .keyboard => .ok (EOF, 0)
  | .serial _ => serialWrite w buf count
  | .tty _ _ => .error .outOfFuel
  | .block driver => do
      let t ← now (driver.write buf (count.setWidth 8) idx w.blocks)
      return (blockResult driver (count.setWidth 8), movedBytes w.blocks t)

/-- `device_get`. -/
def deviceGet (w : Devices) (dev : Nat) : Answer Driver := do
  now (check (dev < DEVICE_NR))
  match w.device dev with
  | none => .error (.stopped .assertion)
  | some driver => return driver

/-- `device_read`, and behind it `tty_read`. -/
def deviceRead (w : Devices) (dev : Nat) (count idx : BitVec 32) : Answer (Int × List Byte) := do
  match ← deviceGet w dev with
  | .tty rdev _ => do
      let driver ← deviceGet w rdev
      driver.read w count 0
  | driver => driver.read w count idx

/-- `device_write`, and behind it `tty_write`. -/
def deviceWrite (w : Devices) (dev : Nat) (buf : Nat → Byte) (count idx : BitVec 32) :
    Answer (Int × Nat) := do
  match ← deviceGet w dev with
  | .tty _ wdev => do
      let driver ← deviceGet w wdev
      driver.write w buf count 0
  | driver => driver.write w buf count idx

/-- `pipe_read` in task `t`. -/
def pipeRead (w : Devices) (t inode : Nat) (count : Int) : Answer (Int × List Byte) := do
  let (buf, _) ← pipeReadLoop t count.toNat w.pipes (w.pipe inode) []
  return (buf.length, buf)

/-- `pipe_write` in task `t`. -/
def pipeWrite (w : Devices) (t inode : Nat) (buf : Nat → Byte) (count : Int) :
    Answer (Int × Nat) := do
  let (put, _) ← pipeWriteLoop t (taken buf count.toNat) w.pipes (w.pipe inode) []
  return (put.length, put.length)

/-! ## What a call has moved when it returns -/

section Moved

variable {α : Type} {w : Devices} {n idx : BitVec 32} {t inode port : Nat} {count : Int}
  {buf : Nat → Byte}

theorem ends_now {x : Res α} {Q : α → Prop} (h : ∀ a, x = .ok a → Q a) : Ends never (now x) Q := by
  cases x with
  | ok a => exact h a rfl
  | error e => exact id

theorem ends_all (x : Answer α) : Ends never x fun _ => True := Ends.any x

theorem fifoLoop_length (asserts : Bool) (left : Nat) : ∀ (later : List Arrival) (waiter : Bool)
    (fifo : Fifo) (buf : List Byte), Ends never (fifoLoop asserts left later waiter fifo buf) fun r =>
      r.1.length = buf.length + left := by
  induction left with
  | zero => exact fun _ _ _ _ => rfl
  | succ left ih =>
      intro later waiter fifo buf
      refine (ends_all _).bind fun a _ => (ends_all _).bind fun b _ => (ih _ _ _ _).mono ?_
      intro r hr
      rw [hr, List.length_append, List.length_singleton]
      omega

theorem lineLoop_length (ready : List Bool) : ∀ left sent : List Byte,
    Ends never (lineLoop ready left sent) fun r => r.length = sent.length + left.length := by
  induction ready with
  | nil =>
      intro left sent
      cases left with
      | nil => exact rfl
      | cons byte left => exact id
  | cons r ready ih =>
      intro left sent
      cases left with
      | nil =>
          cases r
          all_goals exact rfl
      | cons byte left =>
          cases r with
          | false => exact ih (byte :: left) sent
          | true =>
              refine (ih left (sent ++ [byte])).mono fun r hr => ?_
              rw [hr, List.length_append, List.length_singleton, List.length_cons]
              omega

theorem pipeReadLoop_length (t left : Nat) : ∀ (later : List Pipe) (pipe : Pipe) (buf : List Byte),
    Ends never (pipeReadLoop t left later pipe buf) fun r => r.1.length = buf.length + left := by
  induction left with
  | zero => exact fun _ _ _ => rfl
  | succ left ih =>
      intro later pipe buf
      have hnext : ∀ later pipe byte, Ends never (pipeReadLoop t left later pipe (buf ++ [byte]))
          fun r => r.1.length = buf.length + (left + 1) := by
        intro later pipe byte
        refine (ih later pipe (buf ++ [byte])).mono fun r hr => ?_
        rw [hr, List.length_append, List.length_singleton]
        omega
      rw [pipeReadLoop]
      refine (ends_all _).bind fun turn _ => ?_
      cases turn with
      | takes pipe byte woken => exact hnext _ _ _
      | waits pipe =>
          cases later with
          | nil => exact id
          | cons pipe later =>
              refine (ends_all _).bind fun turn _ => ?_
              cases turn with
              | takes pipe byte woken => exact hnext _ _ _
              | waits pipe => exact id

theorem pipeWriteLoop_length (t : Nat) (left : List Byte) : ∀ (later : List Pipe) (pipe : Pipe)
    (put : List Byte), Ends never (pipeWriteLoop t left later pipe put) fun r =>
      r.1.length = put.length + left.length := by
  induction left with
  | nil => exact fun _ _ _ => rfl
  | cons byte left ih =>
      intro later pipe put
      have hnext : ∀ later pipe, Ends never (pipeWriteLoop t left later pipe (put ++ [byte]))
          fun r => r.1.length = put.length + (byte :: left).length := by
        intro later pipe
        refine (ih later pipe (put ++ [byte])).mono fun r hr => ?_
        rw [hr, List.length_append, List.length_singleton, List.length_cons]
        omega
      rw [pipeWriteLoop]
      refine (ends_all _).bind fun turn _ => ?_
      cases turn with
      | puts pipe woken => exact hnext _ _
      | waits pipe =>
          cases later with
          | nil => exact id
          | cons pipe later =>
              refine (ends_all _).bind fun turn _ => ?_
              cases turn with
              | puts pipe woken => exact hnext _ _
              | waits pipe => exact id

theorem taken_length (buf : Nat → Byte) (n : Nat) : (taken buf n).length = n := by
  rw [taken, List.length_map, List.length_range]

theorem toInt_small {n : Nat} (hn : n < 2 ^ 31) : (BitVec.ofNat 32 n).toInt = n := by
  rw [BitVec.toInt_eq_toNat_of_lt]
  · rw [BitVec.toNat_ofNat, Nat.mod_eq_of_lt (by omega)]
  · rw [BitVec.toNat_ofNat]
    omega

/-- A driver has moved what it returns, all it was asked for. -/
def All (n : Nat) (r : Int × Nat) : Prop := r.1 = n ∧ r.2 = n

theorem keyboardRead_all (hn : n.toNat < 2 ^ 31) :
    Ends never (keyboardRead w n) fun r => All n.toNat (r.1, r.2.length) := by
  refine (fifoLoop_length false n.toNat _ _ _ _).bind fun r hr => ⟨?_, ?_⟩
  · exact BitVec.toInt_eq_toNat_of_lt (by omega)
  · exact hr.trans (Nat.zero_add _)

theorem serialRead_all (hn : n.toNat < 2 ^ 31) :
    Ends never (serialRead w port n) fun r => All n.toNat (r.1, r.2.length) := by
  refine (fifoLoop_length true n.toNat _ _ _ _).bind fun r hr => ?_
  rw [List.length_nil, Nat.zero_add] at hr
  refine ⟨?_, hr⟩
  show (BitVec.ofNat 32 r.1.length).toInt = _
  rw [hr]
  exact toInt_small hn

theorem serialWrite_all (hn : n.toNat < 2 ^ 31) :
    Ends never (serialWrite w buf n) (All n.toNat) := by
  refine (lineLoop_length w.ready _ _).bind fun r hr => ?_
  rw [taken_length, List.length_nil, Nat.zero_add] at hr
  refine ⟨?_, hr⟩
  show (BitVec.ofNat 32 r.length).toInt = _
  rw [hr]
  exact toInt_small hn

theorem pipeRead_all :
    Ends never (pipeRead w t inode count) fun r => All count.toNat (r.1, r.2.length) := by
  refine (pipeReadLoop_length t count.toNat _ _ _).bind fun r hr => ?_
  rw [List.length_nil, Nat.zero_add] at hr
  exact ⟨congrArg Int.ofNat hr, hr⟩

theorem pipeWrite_all :
    Ends never (pipeWrite w t inode buf count) (All count.toNat) := by
  refine (pipeWriteLoop_length t _ _ _ _).bind fun r hr => ?_
  rw [taken_length, List.length_nil, Nat.zero_add] at hr
  exact ⟨congrArg Int.ofNat hr, hr⟩

/-- `console_write` returns one more than it has moved. -/
theorem consoleWrite_over (n : BitVec 32) : Ends never (Driver.write w buf n idx .console) fun r =>
    r.1 = (BitVec.ofNat 32 (n.toNat + 1)).toInt ∧ r.2 = n.toNat := by
  refine (ends_now (Q := fun r => r.1 = BitVec.ofNat 32 (n.toNat + 1)) fun r hr => ?_).bind fun r hr => ?_
  · obtain ⟨con, _, hret⟩ := bind_eq_ok hr
    cases hret
    rw [taken_length]
  · exact ⟨congrArg BitVec.toInt hr, taken_length buf n.toNat⟩

/-- A driver of a block device moves whole sectors. -/
theorem blockRead_moved (driver : NeonixBlockDevices.Driver) : Ends never
    (Driver.read w n idx (.block driver)) fun r =>
      r.1 = blockResult driver (n.setWidth 8) ∧
        r.2.length = (n.setWidth 8).toNat * SECTOR_SIZE ∧
        driver.Admits (n.setWidth 8) idx w.blocks := by
  refine (ends_now (Q := fun r => r.1.length = (n.setWidth 8).toNat * SECTOR_SIZE ∧
    driver.Admits (n.setWidth 8) idx w.blocks) fun r hr => ?_).bind fun r hr => ⟨rfl, hr⟩
  refine ⟨(NeonixDeviceFiles.read_length hr).1, ?_⟩
  by_contra hnot
  rw [(NeonixBlockDevices.Driver.refused hnot).1] at hr
  cases hr

theorem sum_places (driver : NeonixBlockDevices.Driver) (c : BitVec 8) (lba : BitVec 32) :
    ((driver.places c lba).map placeSize).sum = c.toNat * SECTOR_SIZE := by
  cases driver with
  | disk d total =>
      simp [NeonixBlockDevices.Driver.places, placeSize, Function.comp_def, List.map_const']
  | part p => simp [NeonixBlockDevices.Driver.places, placeSize, Function.comp_def, List.map_const']
  | ramdisk r =>
      simp [NeonixBlockDevices.Driver.places, NeonixBlockDevices.addresses, placeSize,
        Function.comp_def, List.map_const', NeonixBlockDevices.ramdiskLen_toNat]

theorem blockWrite_moved (driver : NeonixBlockDevices.Driver) : Ends never
    (Driver.write w buf n idx (.block driver)) fun r =>
      r.1 = blockResult driver (n.setWidth 8) ∧
        r.2 = (n.setWidth 8).toNat * SECTOR_SIZE ∧ driver.Admits (n.setWidth 8) idx w.blocks := by
  refine (ends_now (Q := fun t => movedBytes w.blocks t = (n.setWidth 8).toNat * SECTOR_SIZE ∧
    driver.Admits (n.setWidth 8) idx w.blocks) fun t ht => ?_).bind fun t ht => ⟨rfl, ht⟩
  by_cases hadmits : driver.Admits (n.setWidth 8) idx w.blocks
  · obtain ⟨t', ht', htouched, _⟩ := driver.write_admitted hadmits buf
    rw [ht'] at ht
    cases ht
    refine ⟨?_, hadmits⟩
    rw [movedBytes, htouched, List.drop_left, sum_places]
  · rw [(NeonixBlockDevices.Driver.refused hadmits).2] at ht
    cases ht

end Moved

end NeonixTransfers
