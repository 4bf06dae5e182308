import Mathlib.Logic.Function.Basic
import Neonix.LinkedList
import Neonix.Machine
import Neonix.Runs

/-! # `kernel/device.c`: the block device requests

    A step is the code a task runs up to the next point where it can be switched
    away from: the `task_block` of `device_request`, and the device inside
    `do_request`, which may keep the task for any time.  A request is the index
    of its `kmalloc`; the list nodes are the lists of the devices, and a fresh
    node is on none.  Only the end of `device_request` makes a task ready that
    `device_request` has blocked. -/

namespace NeonixRequests

open NeonixMachine NeonixLinkedList NeonixRuns

def DEVICE_NR : Int := 64

/-- `EOF` as the offset `device_ioctl` returns it. -/
def EOF : BitVec 32 := -1#32

/-- `device_type_t`. -/
inductive DeviceType where
  | null | char | block
  deriving DecidableEq

/-- `direct` of a disk. -/
inductive Direct where
  | up | down
  deriving DecidableEq

/-- `REQ_READ` and `REQ_WRITE`. -/
inductive ReqType where
  | read | write
  deriving DecidableEq

/-- `request_t`; `task` is `NULL` for a request that did not wait. -/
structure Request where
  dev : Int
  type : ReqType
  idx : BitVec 32
  count : BitVec 8
  flags : Int
  buf : Nat
  task : Option Nat

/-- The part of `device_t` requests are about; `ioctl` is what the device answers
    to `DEV_CMD_SECTOR_START`, where it has a control function. -/
structure Device where
  type : DeviceType
  parent : Int
  ioctl : Option (BitVec 32)
  request_list : List Nat
  direct : Direct

/-- Where a task stands. -/
inductive Pc where
  /-- outside `device_request` -/
  | user
  /-- in its `task_block` -/
  | waiting (req : Nat)
  /-- in its `do_request` -/
  | executing (req : Nat)
  deriving DecidableEq

/-- `blocked` are the tasks in `TASK_BLOCKED` on a request; `executed` are the
    requests `do_request` was called for, the last one first. -/
structure Disks where
  devices : Int → Device
  requests : Nat → Option Request
  allocated : Nat
  blocked : Nat → Bool
  pc : Nat → Pc
  executed : List Nat

def Disks.setDevice (s : Disks) (dev : Int) (d : Device) : Disks :=
  { s with devices := Function.update s.devices dev d }

/-- `device_get`.  The number is signed, and only its upper bound is checked. -/
def deviceGet (s : Disks) (dev : Int) : Res Device := do
  check (dev < DEVICE_NR)
  if dev < 0 then .error .outOfBounds
  else
    check ((s.devices dev).type ≠ .null)
    return s.devices dev

/-- `device_ioctl(dev, DEV_CMD_SECTOR_START, 0, 0)`. -/
def sectorStart (device : Device) : BitVec 32 := device.ioctl.getD EOF

/-- The device whose list a request for `dev` goes on: the disk of a partition. -/
def rootDevice (s : Disks) (dev : Int) : Res Int :=
  let parent := (s.devices dev).parent
  if parent ≠ 0 then do
    let _ ← deviceGet s parent
    return parent
  else return dev

/-- The `int` at `idx` that `list_insert_sort` compares. -/
def requestKey (s : Disks) (req : Nat) : Int :=
  ((s.requests req).map fun r => r.idx.toInt).getD 0

/-- `do_request`. -/
def doRequest (s : Disks) (t req : Nat) : Disks :=
  { s with executed := req :: s.executed, pc := Function.update s.pc t (.executing req) }

/-- `request_nextreq`: the next request and the direction it leaves. -/
def requestNextreq (device : Device) (req : Nat) : Option Nat × Direct :=
  let list := device.request_list
  let direct :=
    if device.direct = .up ∧ next req list = none then .down
    else if device.direct = .down ∧ prev req list = none then .up
    else device.direct
  match direct with
  | .up => (next req list, direct)
  | .down => (prev req list, direct)

/-- The request `device_request` makes, and its place on the list. -/
def enqueue (s : Disks) (root : Int) (r : Request) : Disks :=
  let s := { s with
    requests := Function.update s.requests s.allocated (some r)
    allocated := s.allocated + 1 }
  let device := s.devices root
  s.setDevice root { device with
    request_list := insertSort (requestKey s) (s.allocated - 1) device.request_list }

/-- `device_request` up to its first blocking point. -/
def deviceRequest (s : Disks) (t : Nat) (dev : Int) (buf : Nat) (count : BitVec 8) (idx : BitVec 32)
    (flags : Int) (type : ReqType) : Res Disks := do
  let device ← deviceGet s dev
  let s := s.setDevice dev { device with type := .block }
  let offset := idx + sectorStart device
  let root ← rootDevice s dev
  let req := s.allocated
  let empty := (s.devices root).request_list = []
  let r : Request :=
    { dev := root, type := type, idx := offset, count := count, flags := flags, buf := buf
      task := if empty then none else some t }
  let s := enqueue s root r
  if empty then return doRequest s t req
  else
    return { s with
      blocked := Function.update s.blocked t true
      pc := Function.update s.pc t (.waiting req) }

/-- `task_unblock(nextreq->task, EOK)`. -/
def wakeRequester (s : Disks) (nextreq : Nat) : Res Disks :=
  match (s.requests nextreq).bind Request.task with
  | none => .error .outOfBounds
  | some task => .ok { s with blocked := Function.update s.blocked task false }

/-- `device_request` from the return of `do_request` on. -/
def finishRequest (s : Disks) (t req : Nat) : Res Disks :=
  match s.requests req with
  | none => .error .outOfBounds
  | some r => do
      let device := s.devices r.dev
      let (nextreq, direct) := requestNextreq device req
      check (req ∈ device.request_list)
      let s := s.setDevice r.dev { device with
        direct := direct
        request_list := device.request_list.erase req }
      let s := { s with
        requests := Function.update s.requests req none
        pc := Function.update s.pc t .user }
      match nextreq with
      | none => return s
      | some nextreq => wakeRequester s nextreq

inductive Event where
  | request (t : Nat) (dev : Int) (buf : Nat) (count : BitVec 8) (idx : BitVec 32) (flags : Int)
      (type : ReqType)
  /-- the task goes on from where it stands -/
  | resume (t : Nat)

/-- The step of an event that can happen. -/
def exec (s : Disks) : Event → Res Disks
  | .request t dev buf count idx flags type => deviceRequest s t dev buf count idx flags type
  | .resume t =>
      match s.pc t with
      | .user => .ok s
      | .waiting req => .ok (doRequest s t req)
      | .executing req => finishRequest s t req

/-- When an event can happen: a call comes from a task outside `device_request`
    and names a sector below 2^31; a task that is not blocked can go on. -/
def Enabled (s : Disks) : Event → Prop
  | .request t dev _ _ idx _ _ =>
      s.pc t = .user ∧ (idx + sectorStart (s.devices dev)).toNat < 2 ^ 31
  | .resume t => s.blocked t = false

instance (s : Disks) : (e : Event) → Decidable (Enabled s e)
  | .request _ _ _ _ _ _ _ => inferInstanceAs (Decidable (_ ∧ _))
  | .resume _ => inferInstanceAs (Decidable (_ = _))

/-- `device_init` and the installed devices, before the first request. -/
structure Init (s : Disks) : Prop where
  request_list : ∀ dev, (s.devices dev).request_list = []
  requests : ∀ req, s.requests req = none
  allocated : s.allocated = 0
  blocked : ∀ t, s.blocked t = false
  pc : ∀ t, s.pc t = .user
  executed : s.executed = []

/-- The devices and the tasks that use them. -/
def system : System Disks Event := execSystem Init Enabled exec

end NeonixRequests
