import Devirt.Body.Draft
import Devirt.Program

/-!
Small programs that show what devirtualization does to typical call sites.
-/

namespace Devirt

namespace Samples

private def plainMethods (names : List String) : List Method :=
  names.map fun name => { signature := { name } }

private def abstractMethods (names : List String) : List Method :=
  names.map fun name => { signature := { name }, isAbstract := true }

private def interfaceI (methods : List String) : Class :=
  { name := "I", isInterface := true, methods := abstractMethods methods }

private def implementor (name : TypeName) (methods : List String) : Class :=
  { name, interfaces := ["I"], methods := plainMethods methods }

private def mainClass : Class := { name := "Main", methods := plainMethods ["run"] }

private def mainMethod : MethodRef := .plain "Main" "run"

private def entryBlock : BlockId := ⟨0⟩

/-- Two classes that implement one interface. -/
private def twoImplementors : Hierarchy :=
  { defined :=
      [interfaceI ["foo", "bar"], implementor "H" ["foo", "bar"], implementor "G" ["foo", "bar"],
        mainClass] }

/-- An argument declared as the interface, but known to be of one class at run time. -/
private def receiverKnownAs (name : TypeName) : Drafting ValueId := do
  let v ← Drafting.argument (.ofClass "I" .maybe)
  Drafting.dynamic v { name, exact := true }
  return v

private def callFoo (b : BlockId) (receiver : ValueId) : Drafting InstrId :=
  Drafting.call b .interface (.plain "I" "foo") [receiver]

/-- A program whose only body is that of its entry method. -/
private def ofMain (hierarchy : Hierarchy) (arguments : List RuntimeValue) (w : Drafting Unit) :
    Except Fault Program := do
  let (_, c) ← Body.write mainMethod w
  return { hierarchy, entry := mainMethod, arguments, bodies := [c] }

/-- The receiver is created right before the call. -/
def exactReceiver : Except Fault Program :=
  ofMain { defined := [interfaceI ["foo"], implementor "A" ["foo"], mainClass] } [] do
    let object ← Drafting.create entryBlock "A"
    let _ ← callFoo entryBlock object
    let _ ← Drafting.ret entryBlock none

/-- Nothing is known about the receiver, and two classes implement the interface. -/
def unknownReceiver : Except Fault Program :=
  let hierarchy : Hierarchy :=
    { defined := [interfaceI ["foo"], implementor "A" ["foo"], implementor "B" ["foo"], mainClass] }
  ofMain hierarchy [.object "B"] do
    let object ← Drafting.argument (.ofClass "I" .maybe)
    let _ ← callFoo entryBlock object
    let _ ← Drafting.ret entryBlock none

/-- Three classes in a row, each with its own methods, and further classes. -/
private def chainOfThree (further : List Class) : Hierarchy :=
  { defined :=
      [{ name := "A", methods := plainMethods ["foo", "bar"] },
        { name := "B", superclass := some "A", methods := plainMethods ["foo", "bar"] },
        { name := "C", superclass := some "B", methods := plainMethods ["foo", "bar"] }] ++
        further ++ [mainClass] }

/-- A method that only makes a super call. -/
private def superBody (method target : MethodRef) : Except Fault Body := do
  let (_, c) ← Body.write method do
    let this ← Drafting.argument (.ofClass method.holder .notNull)
    let _ ← Drafting.call entryBlock .super target [this]
    let _ ← Drafting.ret entryBlock none
  return c

/-- A method that creates an object and calls methods on it. -/
private def creatingBody (name : TypeName) (targets : List MethodRef) : Except Fault Body := do
  let (_, c) ← Body.write mainMethod do
    let object ← Drafting.create entryBlock name
    for target in targets do
      let _ ← Drafting.call entryBlock .virtual target [object]
    let _ ← Drafting.ret entryBlock none
  return c

/-- Overriding methods call each other along the superclasses. -/
def superCalls : Except Fault Program := do
  let bodies ← ["foo", "bar"].mapM fun name => do
    return [← superBody (.plain "C" name) (.plain "B" name),
      ← superBody (.plain "B" name) (.plain "A" name)]
  let main ← creatingBody "C" [.plain "A" "foo", .plain "A" "bar"]
  return { hierarchy := chainOfThree [], entry := mainMethod, bodies := bodies.flatten ++ [main] }

/-- A super call reaches a method that its class inherits and does not override. -/
def inheritedSuper : Except Fault Program := do
  let further : Class := { name := "D", superclass := some "B", methods := plainMethods ["baz"] }
  let bodies :=
    [← superBody (.plain "D" "baz") (.plain "B" "bar"),
      ← superBody (.plain "B" "bar") (.plain "A" "bar"),
      ← creatingBody "D" [.plain "D" "baz"]]
  return { hierarchy := chainOfThree [further], entry := mainMethod, bodies }

/-- An abstract class stands between the declared method and the one that runs. -/
def abstractBetween : Except Fault Program := do
  let hierarchy : Hierarchy :=
    { defined :=
        [{ name := "A", methods := plainMethods ["foo"] },
          { name := "B", superclass := some "A", declaredAbstract := true,
            methods := abstractMethods ["foo"] },
          { name := "C", superclass := some "B", methods := plainMethods ["foo"] },
          mainClass] }
  return { hierarchy, entry := mainMethod, bodies := [← creatingBody "C" [.plain "A" "foo"]] }

private def twoCalls (variableName : Option String) : Except Fault Program :=
  ofMain twoImplementors [.object "H"] do
    let object ← receiverKnownAs "H"
    if let some name := variableName then Drafting.localName object name
    let _ ← callFoo entryBlock object
    let _ ← callFoo entryBlock object
    let _ ← Drafting.ret entryBlock none

/-- Two calls on one receiver. -/
def repeatedCalls : Except Fault Program := twoCalls none

/-- Two calls on a receiver that stands for a source variable. -/
def repeatedCallsOnVariable : Except Fault Program := twoCalls (some "receiver")

/-- A call in a guarded block. The handler and the exit may return the receiver. -/
private def guarded (returnsReceiver : Bool) : Except Fault Program :=
  ofMain twoImplementors [.object "H"] do
    let object ← receiverKnownAs "H"
    let body ← Drafting.newBlock
    let handler ← Drafting.newBlock
    let exit ← Drafting.newBlock
    let result := if returnsReceiver then some object else none
    let _ ← Drafting.goto entryBlock body
    Drafting.handler body none handler
    let _ ← callFoo body object
    let _ ← Drafting.goto body exit
    let _ ← Drafting.ret handler result
    let _ ← Drafting.ret exit result

def guardedCall : Except Fault Program := guarded false

/-- The handler reads the receiver of the guarded call. -/
def guardedCallReadByHandler : Except Fault Program := guarded true

private def callBefore (castToo : Bool) : Except Fault Program :=
  ofMain twoImplementors [.object "H"] do
    let object ← receiverKnownAs "H"
    let call ← callFoo entryBlock object
    let assumed ← Drafting.assumeNonNull entryBlock object (some call)
    if castToo then
      let _ ← Drafting.cast entryBlock assumed "I"
    let _ ← Drafting.ret entryBlock none

/-- The receiver is assumed not to be null after the call. -/
def callBeforeAssumption : Except Fault Program := callBefore false

/-- The assumption is followed by a cast. -/
def callBeforeCast : Except Fault Program := callBefore true

/-- One branch of a diamond makes a call, and the block after it makes it again. -/
def callsAroundDiamond : Except Fault Program :=
  ofMain twoImplementors [.object "H"] do
    let object ← receiverKnownAs "H"
    Drafting.localName object "receiver"
    let left ← Drafting.newBlock
    let right ← Drafting.newBlock
    let exit ← Drafting.newBlock
    let condition ← Drafting.number entryBlock 1
    let _ ← Drafting.branch entryBlock condition left right
    let _ ← callFoo left object
    let _ ← Drafting.goto left exit
    let _ ← Drafting.goto right exit
    let _ ← callFoo exit object
    let _ ← Drafting.ret exit none

/-- Makes a call in the current block, or in a new guarded block if the site calls for one, and
returns the block to go on with. -/
private def callSite (handler : BlockId) (object : ValueId) (current : BlockId) (site : Nat) :
    Drafting BlockId := do
  let next ← Drafting.newBlock
  if site % 3 = 2 then
    let _ ← Drafting.goto current next
    let after ← Drafting.newBlock
    Drafting.handler next none handler
    let _ ← callFoo next object
    let _ ← Drafting.goto next after
    return after
  else
    let _ ← callFoo current object
    let _ ← Drafting.goto current next
    return next

/-- Many calls on one receiver, every third of them guarded. -/
def longChain (implementors callSites : Nat) : Except Fault Program :=
  let classes := (List.range (max implementors 1)).map fun n =>
    implementor ("Impl" ++ Nat.repr n) ["foo"]
  ofMain { defined := interfaceI ["foo"] :: classes ++ [mainClass] } [.object "Impl0"] do
    let object ← receiverKnownAs "Impl0"
    Drafting.localName object "receiver"
    let handler ← Drafting.newBlock
    let _ ← Drafting.ret handler none
    let last ← (List.range callSites).foldlM (callSite handler object) entryBlock
    let _ ← Drafting.ret last none

end Samples

end Devirt
