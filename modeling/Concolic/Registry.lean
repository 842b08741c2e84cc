import Concolic.Tracer.Run

/-!
# Registries

A registry holds the collector of each thread. A thread without one gets a collector that ignores
all events. A collector whose thread crashed while using it is poisoned and cannot be used any more,
but it can be replaced.
-/

namespace Concolic

/-- What receives the events of a thread. -/
inductive Collector where
  | ignoring
  | tracing (tracer : Tracer)

namespace Collector

def deliver (c : Collector) (e : Event) : Except Failure Unit × Collector :=
  match c with
  | .ignoring => (.ok (), .ignoring)
  | .tracing t =>
    let (outcome, t) := t.deliver e
    (outcome, .tracing t)

def summary : Collector → Summary
  | .ignoring => ∅
  | .tracing t => t.summary

end Collector

/-- A collector that may be poisoned. -/
structure Collector.Slot where
  collector : Collector
  poisoned : Bool

namespace Collector.Slot

def fresh (collector : Collector) : Slot := ⟨collector, false⟩

/-- The collector, unless it is poisoned. -/
def access (s : Slot) : Result Collector := if s.poisoned then .error .poisoned else .ok s.collector

end Collector.Slot

/-- The collectors by thread. -/
structure Registry where
  slots : Table Nat Collector.Slot

namespace Registry

def empty : Registry := ⟨∅⟩

variable (r : Registry) (thread : Nat)

def size : Nat := r.slots.size

/-- Gives a thread a collector. -/
def register (c : Collector) : Registry := ⟨r.slots.insert thread (.fresh c)⟩

/-- The slot of a thread, which is made if there is none. -/
def current : Collector.Slot × Registry :=
  match r.slots.get? thread with
  | some slot => (slot, r)
  | none => (.fresh .ignoring, r.register thread .ignoring)

/-- Takes the slot of a thread away; an ignoring collector takes its place. -/
def detach : Option Collector.Slot × Registry :=
  (r.slots.get? thread, r.register thread .ignoring)

/-- The thread crashes while it uses its collector. -/
def poison : Registry :=
  let (slot, r) := r.current thread
  ⟨r.slots.insert thread { slot with poisoned := true }⟩

/-- Hands an event to the collector of a thread. -/
def deliver (e : Event) : Result (Except Failure Unit) × Registry :=
  let (slot, r) := r.current thread
  match slot.access with
  | .error cause => (.error cause, r)
  | .ok collector =>
    let (outcome, collector) := collector.deliver e
    (.ok outcome, ⟨r.slots.insert thread (.fresh collector)⟩)

/-- The summary of the collector of a thread. -/
def summary : Result Summary × Registry :=
  let (slot, r) := r.current thread
  (slot.access.map Collector.summary, r)

end Registry

end Concolic
