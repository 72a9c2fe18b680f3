/-!
# Machines that ask

A machine moves by itself, asks its surroundings for something, or halts. What it may ask is an
`Interface`; the surroundings are a `Device` with a state of their own.

* `Action`: what a machine does in one step.
* `run`: a machine beside a device, for a bounded number of actions.
* `Device.logged`: a device that also keeps the list of all requests and replies.
-/

namespace TapeLang

/-- The requests of a machine, and for each the type of its replies. -/
structure Interface where
  Request : Type
  Reply : Request → Type

/-- One action of a machine with states `S` and results `R`. -/
inductive Action (I : Interface) (S R : Type) where
  | next (state : S)
  | ask (request : I.Request) (resume : I.Reply request → S)
  | halt (result : R)

/-- One request together with the reply it got. -/
structure Event (I : Interface) where
  request : I.Request
  reply : I.Reply request

/-- Surroundings with states `σ`: an answer to every request. -/
def Device (I : Interface) (σ : Type) : Type := (request : I.Request) → σ → I.Reply request × σ

/-- The same surroundings, which remember every event in order. -/
def Device.logged {I : Interface} {σ : Type} (d : Device I σ) : Device I (σ × Array (Event I)) :=
  fun request (world, events) =>
    let (reply, world) := d request world
    (reply, world, events.push ⟨request, reply⟩)

/-- Where a run stands: at its result, or still at a state, with the state of the surroundings. -/
inductive Progress (S R σ : Type) where
  | halted (result : R) (world : σ)
  | running (state : S) (world : σ)

/-- At most `fuel` actions of the machine `step`, beside the device `d`. -/
@[specialize]
def run {I : Interface} {S R σ : Type} (step : S → Action I S R) (d : Device I σ) :
    Nat → S → σ → Progress S R σ
  | 0, state, world => .running state world
  | fuel + 1, state, world =>
    match step state with
    | .next state => run step d fuel state world
    | .ask request resume =>
      let (reply, world) := d request world
      run step d fuel (resume reply) world
    | .halt result => .halted result world

end TapeLang
