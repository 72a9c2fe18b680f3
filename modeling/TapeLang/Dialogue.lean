import TapeLang.Interaction

/-!
# Dialogues

A finite course of requests, each depending on the replies so far, that ends with a value.
-/

namespace TapeLang

inductive Dialogue (I : Interface) (α : Type) where
  | done (a : α)
  | ask (request : I.Request) (resume : I.Reply request → Dialogue I α)

namespace Dialogue

variable {I : Interface} {α β σ : Type}

def bind (d : Dialogue I α) (f : α → Dialogue I β) : Dialogue I β :=
  match d with
  | done a => f a
  | ask request resume => ask request fun reply => (resume reply).bind f

instance : Monad (Dialogue I) where
  pure := done
  bind := bind

/-- A single request. -/
def request (r : I.Request) : Dialogue I (I.Reply r) := ask r done

/-- The value of a dialogue with `d`, and the surroundings after it. -/
def run (d : Device I σ) (dialogue : Dialogue I α) (world : σ) : α × σ :=
  match dialogue with
  | done a => (a, world)
  | ask request resume =>
    let (reply, world) := d request world
    (resume reply).run d world

end Dialogue

end TapeLang
