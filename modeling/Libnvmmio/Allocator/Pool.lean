import Libnvmmio.Foundation.GuardedRun
import Libnvmmio.Foundation.LinkedLists

/-! # The pool of one kind of object

The global free list of `allocator.c` and the providers and collectors of the
threads. Each free object hangs from an `fnode_t`, which is linked into a list
and, if it ends a run of `skip_unit` nodes, into a skip list. A local list that
has not been allocated yet is an empty one.
-/

namespace Libnvmmio.Allocator

open LinkedLists GuardedRun

set_option autoImplicit false

inductive Place (T : Type) where
  | global
  | provider (t : T)
  | collector (t : T)
  deriving DecidableEq, Repr

/-- The memory of the lists and nodes, and the objects that are handed out. -/
structure Pool (T N Obj : Type) where
  list : Links (Place T) N
  skip : Links (Place T) N
  ptr : N → Obj
  /-- the nodes that `get_fnode` has returned and `put_fnode` has not freed -/
  live : N → Bool
  listCnt : Place T → Nat
  skipCnt : Place T → Nat
  outstanding : List Obj

def maxSkipNodes : Nat := 2

variable {T N Obj : Type}

def Pool.empty (ptr : N → Obj) : Pool T N Obj where
  list _ := none
  skip _ := none
  ptr := ptr
  live _ := false
  listCnt _ := 0
  skipCnt _ := 0
  outstanding := []

namespace Pool

variable [DecidableEq T] [DecidableEq N] [DecidableEq Obj] (skipUnit : Nat)

/-- `get_fnode` returns `node`, which is given the object. -/
def getFnode (s : Pool T N Obj) (node : N) (obj : Obj) : Pool T N Obj :=
  { s with live := Function.update s.live node true, ptr := Function.update s.ptr node obj }

def pushList (s : Pool T N Obj) (node : N) (p : Place T) : Pool T N Obj :=
  { s with list := push s.list node p, listCnt := Function.update s.listCnt p (s.listCnt p + 1) }

def pushSkip (s : Pool T N Obj) (node : N) (p : Place T) : Pool T N Obj :=
  { s with skip := push s.skip node p, skipCnt := Function.update s.skipCnt p (s.skipCnt p + 1) }

/-- `put_global`, and the end of `put_local_collector`. -/
def put (s : Pool T N Obj) (node : N) (p : Place T) : Pool T N Obj :=
  if s.listCnt p % skipUnit = 0 then (s.pushSkip node p).pushList node p else s.pushList node p

def pushGlobal (s : Pool T N Obj) (node : N) (obj : Obj) : Pool T N Obj :=
  (s.getFnode node obj).put skipUnit node .global

/-- `create_global_list`, where `get_fnode` returns the nodes of the list. -/
def createGlobalList (s : Pool T N Obj) (objs : List (N × Obj)) : Pool T N Obj :=
  objs.foldl (fun s x => s.pushGlobal skipUnit x.1 x.2) s

/-- `fill_local_provider`; it exits if the skip list is empty. -/
def fillLocalProvider (s : Pool T N Obj) (t : T) : Option (Pool T N Obj) := do
  let (node, skip) ← pop s.skip .global
  some { s with list := cutSplice s.list .global node (.provider t), skip := skip }

def popProvider (s : Pool T N Obj) (t : T) : Option (Pool T N Obj) := do
  let (node, list) ← pop s.list (.provider t)
  some { s with
    list := list, live := Function.update s.live node false
    outstanding := s.ptr node :: s.outstanding }

/-- The condition under which `put_local_collector` gives a run of nodes back first. -/
def Full (s : Pool T N Obj) (t : T) : Prop :=
  s.listCnt (.collector t) % skipUnit = 0 ∧ maxSkipNodes ≤ s.skipCnt (.collector t)

instance (s : Pool T N Obj) (t : T) : Decidable (s.Full skipUnit t) :=
  inferInstanceAs (Decidable (_ ∧ _))

def giveBack (s : Pool T N Obj) (t : T) : Option (Pool T N Obj) := do
  let (node, skip) ← pop s.skip (.collector t)
  some { s with
    list := cutSplice s.list (.collector t) node .global
    skip := push skip node .global
    listCnt := Function.update (Function.update s.listCnt (.collector t)
      (s.listCnt (.collector t) - skipUnit)) .global (s.listCnt .global + skipUnit)
    skipCnt := Function.update (Function.update s.skipCnt (.collector t)
      (s.skipCnt (.collector t) - 1)) .global (s.skipCnt .global + 1) }

/-- The atomic parts of `POP_PROVIDER` and `PUSH_COLLECTOR` by a thread. -/
inductive Act (T N Obj : Type) where
  | fill (t : T)
  | alloc (t : T)
  | giveBack (t : T)
  | free (t : T) (node : N) (obj : Obj)

def next (s : Pool T N Obj) : Act T N Obj → Option (Pool T N Obj)
  | .fill t => if s.list (.inl (.provider t)) = none then s.fillLocalProvider t else none
  | .alloc t => s.popProvider t
  | .giveBack t => if s.Full skipUnit t then s.giveBack skipUnit t else none
  | .free t node obj =>
    -- an object that was handed out, and a node that `malloc` may return
    if ¬ s.Full skipUnit t ∧ obj ∈ s.outstanding ∧ s.live node = false then
      let s := (s.getFnode node obj).put skipUnit node (.collector t)
      some { s with outstanding := s.outstanding.erase obj }
    else none

def Step (s : Pool T N Obj) (a : Act T N Obj) (s' : Pool T N Obj) : Prop := s.next skipUnit a = some s'

end Pool

end Libnvmmio.Allocator
