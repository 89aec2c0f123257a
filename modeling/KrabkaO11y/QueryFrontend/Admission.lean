import Mathlib.Tactic
import KrabkaO11y.Concurrent.System

/-!
Query admission (`crates/query-frontend/src/admission.rs`): the locked state of an
`AdmissionController`, and the system of the calls that share it.

A call that waits is a loop that creates a `notified` future, runs `try_admit` and sleeps
until the future is notified. Each of these is one step, and so are a change of the
state and the `notify_waiters` that follows it.
-/

open Std (ExtTreeMap)

namespace KrabkaO11y.QueryFrontend

open Concurrent

/-- Cross-request query work limits. -/
structure AdmissionLimits where
  maxConcurrentRequests : UInt64
  maxConcurrentRequestsPerTenant : UInt64
  maxConcurrentSubqueries : UInt64
  maxConcurrentSubqueriesPerTenant : UInt64
  maxEstimatedBytes : UInt64
  maxEstimatedBytesPerTenant : UInt64
  maxQueuedRequests : UInt64
  maxQueuedRequestsPerTenant : UInt64
  retryAfterSeconds : UInt64
deriving DecidableEq, Repr

inductive AdmissionError where
  | queueFull (retryAfterSeconds : UInt64)
  | requestTooLarge (retryAfterSeconds : UInt64)
deriving DecidableEq, Repr

structure Usage where
  requests : UInt64 := 0
  subqueries : UInt64 := 0
  estimatedBytes : UInt64 := 0
deriving DecidableEq, Repr

structure Waiting where
  id : UInt64
  tenant : String
  subqueries : UInt64
  estimatedBytes : UInt64
  tenantLimits : AdmissionLimits
deriving DecidableEq, Repr

/-- The locked state. -/
structure AdmissionState where
  limits : AdmissionLimits
  nextId : UInt64 := 0
  active : Usage := {}
  tenants : ExtTreeMap String Usage := ∅
  queue : List Waiting := []

def Usage.add (usage : Usage) (work : Waiting) : Usage :=
  ⟨usage.requests + 1, usage.subqueries + work.subqueries,
    usage.estimatedBytes + work.estimatedBytes⟩

def Usage.subtract (usage : Usage) (work : Waiting) : Usage :=
  ⟨usage.requests - 1, usage.subqueries - work.subqueries,
    usage.estimatedBytes - work.estimatedBytes⟩

/-- A checked addition that stays within a limit. -/
def fitsLimit (used work limit : UInt64) : Bool :=
  used.toNat + work.toNat < 2 ^ 64 && used + work ≤ limit

namespace AdmissionState

variable (state : AdmissionState)

def usageOf (tenant : String) : Usage := state.tenants[tenant]?.getD {}

def fits (work : Waiting) : Bool :=
  let tenant := state.usageOf work.tenant
  state.active.requests < work.tenantLimits.maxConcurrentRequests &&
    tenant.requests < work.tenantLimits.maxConcurrentRequestsPerTenant &&
    fitsLimit state.active.subqueries work.subqueries work.tenantLimits.maxConcurrentSubqueries &&
    fitsLimit tenant.subqueries work.subqueries
      work.tenantLimits.maxConcurrentSubqueriesPerTenant &&
    fitsLimit state.active.estimatedBytes work.estimatedBytes
      work.tenantLimits.maxEstimatedBytes &&
    fitsLimit tenant.estimatedBytes work.estimatedBytes
      work.tenantLimits.maxEstimatedBytesPerTenant

/-- The first part of `acquire_with_limits`: checks the request and queues it. -/
def enqueue (tenant : String) (subqueries estimatedBytes : UInt64)
    (tenantLimits : AdmissionLimits) : Except AdmissionError (UInt64 × AdmissionState) :=
  let retryAfterSeconds := max tenantLimits.retryAfterSeconds 1
  if tenantLimits.maxConcurrentRequests = 0 ∨ tenantLimits.maxConcurrentRequestsPerTenant = 0 ∨
      subqueries > tenantLimits.maxConcurrentSubqueries ∨
      subqueries > tenantLimits.maxConcurrentSubqueriesPerTenant ∨
      estimatedBytes > tenantLimits.maxEstimatedBytes ∨
      estimatedBytes > tenantLimits.maxEstimatedBytesPerTenant then
    .error (.requestTooLarge retryAfterSeconds)
  else if state.queue.length ≥ tenantLimits.maxQueuedRequests.toNat ∨
      (state.queue.filter fun waiting => waiting.tenant = tenant).length ≥
        tenantLimits.maxQueuedRequestsPerTenant.toNat then
    .error (.queueFull retryAfterSeconds)
  else
    .ok (state.nextId,
      { state with
        nextId := state.nextId + 1
        queue := state.queue ++
          [⟨state.nextId, tenant, subqueries, estimatedBytes, tenantLimits⟩] })

/-- Whether a waiter behind `earlier` may go ahead. -/
def admissible (earlier : List Waiting) (work : Waiting) : Bool :=
  state.fits work &&
    !earlier.any fun other => other.tenant = work.tenant || state.fits other

/-- The state with the work of a waiter charged to its tenant and taken from the queue. -/
def charge (work : Waiting) (queue : List Waiting) : AdmissionState :=
  { state with
    queue := queue
    active := state.active.add work
    tenants := state.tenants.alter work.tenant fun held => some ((held.getD {}).add work) }

/-- Admits the first waiter with an id, unless it does not fit or has to wait for an
earlier one. -/
def tryAdmit (id : UInt64) : Option (Waiting × AdmissionState) :=
  let earlier := state.queue.takeWhile fun waiting => waiting.id ≠ id
  match state.queue.dropWhile fun waiting => waiting.id ≠ id with
  | [] => none
  | work :: later =>
    if state.admissible earlier work then some (work, state.charge work (earlier ++ later))
    else none

def removeWaiter (id : UInt64) : AdmissionState :=
  { state with queue := state.queue.filter fun waiting => waiting.id ≠ id }

def release (work : Waiting) : AdmissionState :=
  { state with
    active := state.active.subtract work
    tenants := state.tenants.alter work.tenant fun held => held.bind fun usage =>
      if usage.subtract work = {} then none else some (usage.subtract work) }

end AdmissionState

/-! ### The calls -/

/-- Where a waiting call stands: about to create its future, with a future that is or is
not notified and about to run `try_admit`, or asleep on it. -/
inductive WaitPhase where
  | ready
  | checking (notified : Bool)
  | asleep
deriving DecidableEq, Repr

/-- `notify_waiters` reaches the futures that exist. -/
def WaitPhase.notify : WaitPhase → WaitPhase
  | .ready => .ready
  | .checking _ => .checking true
  | .asleep => .ready

structure WaitingCall where
  id : UInt64
  phase : WaitPhase
deriving DecidableEq, Repr

/-- The controller, its waiting calls in the order they came and its live permits. The
notifications that are still to be sent are counted, and the waiters that ever came and
were ever granted are remembered, in order. -/
structure Admission where
  state : AdmissionState
  calls : List WaitingCall := []
  permits : List Waiting := []
  notifications : Nat := 0
  arrivals : List Waiting := []
  grants : List Waiting := []

/-- What can happen. A call or a permit is named by its place in its list. -/
inductive AdmissionEvent where
  | acquire (tenant : String) (subqueries estimatedBytes : UInt64) (tenantLimits : AdmissionLimits)
  | listen (call : Nat)
  | check (call : Nat)
  | cancel (call : Nat)
  | dropPermit (permit : Nat)
  | reload (limits : AdmissionLimits)
  | notify
deriving DecidableEq, Repr

namespace Admission

def new (limits : AdmissionLimits) : Admission := { state := { limits := limits } }

/-- A call runs `try_admit`. One that is refused sleeps, unless its future was notified
meanwhile. -/
def check (s : Admission) (n : Nat) (call : WaitingCall) (notified : Bool) : Admission :=
  match s.state.tryAdmit call.id with
  | some (work, state) =>
    { s with
      state := state
      calls := s.calls.eraseIdx n
      permits := s.permits ++ [work]
      grants := s.grants ++ [work] }
  | none =>
    { s with calls := s.calls.set n ⟨call.id, if notified then .ready else .asleep⟩ }

/-- One step, or `none` when the event cannot happen. -/
def step (s : Admission) : AdmissionEvent → Option Admission
  | .acquire tenant subqueries estimatedBytes tenantLimits =>
    match s.state.enqueue tenant subqueries estimatedBytes tenantLimits with
    | .error _ => some s
    | .ok (id, state) =>
      some { s with
        state := state
        calls := s.calls ++ [⟨id, .ready⟩]
        arrivals := s.arrivals ++ [⟨id, tenant, subqueries, estimatedBytes, tenantLimits⟩] }
  | .listen n =>
    match s.calls[n]? with
    | some ⟨id, .ready⟩ => some { s with calls := s.calls.set n ⟨id, .checking false⟩ }
    | _ => none
  | .check n =>
    match s.calls[n]? with
    | some ⟨id, .checking notified⟩ => some (s.check n ⟨id, .checking notified⟩ notified)
    | _ => none
  | .cancel n =>
    match s.calls[n]? with
    | some call =>
      some { s with
        state := s.state.removeWaiter call.id
        calls := s.calls.eraseIdx n
        notifications := s.notifications + 1 }
    | none => none
  | .dropPermit n =>
    match s.permits[n]? with
    | some work =>
      some { s with
        state := s.state.release work
        permits := s.permits.eraseIdx n
        notifications := s.notifications + 1 }
    | none => none
  | .reload limits =>
    some { s with
      state := { s.state with limits := limits }
      notifications := s.notifications + 1 }
  | .notify =>
    match s.notifications with
    | 0 => none
    | n + 1 =>
      some { s with
        calls := s.calls.map fun call => ⟨call.id, call.phase.notify⟩
        notifications := n }

/-- The states that runs of a new controller reach whose steps all meet a condition. -/
abbrev Reachable (condition : Admission → AdmissionEvent → Prop) (s : Admission) : Prop :=
  System.Reachable step (fun s => ∃ limits, s = new limits) condition s

end Admission

end KrabkaO11y.QueryFrontend
