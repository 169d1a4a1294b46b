import Pkix.Extension.Attributes

/-!
# Sessions on an extension

Tools work on an extension in place, call by call, and go on after a call that was refused.

* `Call.perform`: a call. Whatever it has changed by the time it is refused stays changed.
* `TypedExtension.session`: the answers to calls in their order and the extension after them.
-/

namespace Pkix

/-- A call that names an attribute. -/
inductive Call
  | get (name : String)
  | set (name : String) (v : AttributeValue)
  | delete (name : String)

namespace Call

/-- The `name` that is called by. -/
def name : Call → String
  | get name => name
  | set name _ => name
  | delete name => name

/-- Performs a call on the extension at hand, which answers with a value where one was asked for, as
`get` does. -/
def perform : Call → ExceptT Error (StateM TypedExtension) (Option AttributeValue)
  | get name => do return some (← (← getThe TypedExtension).get name)
  | set name v => do
    let e ← (← getThe TypedExtension).set name v
    modify fun _ => e
    return none
  | delete name => do
    let e ← (← getThe TypedExtension).delete name
    modify fun _ => e
    return none

/-- The answer to a call `c` on an extension `e`, and the extension after it. -/
def on (c : Call) (e : TypedExtension) : Except Error (Option AttributeValue) × TypedExtension :=
  c.perform.run.run e

end Call

namespace TypedExtension

/-- The answers to `calls` one after the other, and the extension after the last one. -/
def session (e : TypedExtension) :
    List Call → List (Except Error (Option AttributeValue)) × TypedExtension
  | [] => ([], e)
  | c :: calls =>
    let (answer, e) := c.on e
    let (answers, e) := e.session calls
    (answer :: answers, e)

/-- The extension after `calls`, which `e` was before. -/
def after (e : TypedExtension) (calls : List Call) : TypedExtension := (e.session calls).2

end TypedExtension

end Pkix
