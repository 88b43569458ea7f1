import Callscope.Outline.Basic
import Callscope.Text.Literal

/-!
# Editing an outline by hand

Single changes of an outline. A change that cannot be made leaves the outline as it is.
-/

namespace Callscope

/-- A property of a class that can be set. -/
inductive ClassSetting where
  | name (s : String)
  | extends_ (s : String)
  | implements (names : List String)
  /-- A property that is derived from the others and cannot be set. -/
  | derived
  deriving Inhabited

/-- A property of a method that can be set. -/
inductive MethodSetting where
  | name (s : String)
  | start (n : Int)
  | stop (n : Int)
  | depth (n : Int)
  | returnType (s : String)
  /-- A property that is derived from the others and cannot be set. -/
  | derived
  deriving Inhabited

inductive Edit where
  | setPackage (name : String)
  | addImport (name : String)
  | putClass (key : String) (settings : List ClassSetting)
  | putMethod (owner key : String) (settings : List MethodSetting)
  | addField (owner : String) (field : Field)
  | addParam (owner method : String) (param : Param)
  /-- A call in a method, or in the class outside of its methods. -/
  | addCall (owner : String) (method : Option String) (call : Call)
  deriving Inhabited

inductive EditError where
  /-- There is no class or no method under this key. -/
  | noEntry (key : String)
  /-- A derived property was to be set. -/
  | derivedProperty
  deriving DecidableEq, Inhabited, Repr

namespace EditError

/-- The wording of an error, where there is more to say than its kind. -/
def message? : EditError → Option String
  | noEntry key => some (Text.literal key)
  | derivedProperty => none

end EditError

namespace ClassEntry

def set (c : ClassEntry) : ClassSetting → Except EditError ClassEntry
  | .name s => .ok { c with name := s }
  | .extends_ s => .ok { c with extends_ := s }
  | .implements ns => .ok { c with implements := some ns }
  | .derived => .error .derivedProperty

end ClassEntry

namespace Method

def set (m : Method) : MethodSetting → Except EditError Method
  | .name s => .ok { m with name := s }
  | .start n => .ok { m with start := n }
  | .stop n => .ok { m with stop := n }
  | .depth n => .ok { m with depth := n }
  | .returnType s => .ok { m with returnType := s }
  | .derived => .error .derivedProperty

end Method

namespace Outline

/-- Changes the class under a key. -/
def onClass (o : Outline) (key : String) (f : ClassEntry → Except EditError ClassEntry) :
    Except EditError Outline :=
  match o.classes.get? key with
  | none => .error (.noEntry key)
  | some c => (f c).map fun c => { o with classes := o.classes.put key c }

/-- Changes the method under a key of a class. -/
def onMethod (o : Outline) (owner key : String) (f : Method → Method) : Except EditError Outline :=
  o.onClass owner fun c =>
    match c.methods.get? key with
    | none => .error (.noEntry key)
    | some m => .ok { c with methods := c.methods.put key (f m) }

/-- One change. A new class or method is put together before its place is looked up. -/
def edit (o : Outline) : Edit → Except EditError Outline
  | .setPackage name => .ok { o with package := name }
  | .addImport name => .ok { o with imports := o.imports ++ [name] }
  | .putClass key settings => do
    let c ← settings.foldlM ClassEntry.set {}
    pure { o with classes := o.classes.put key c }
  | .putMethod owner key settings => do
    let m ← settings.foldlM Method.set {}
    o.onClass owner fun c => .ok { c with methods := c.methods.put key m }
  | .addField owner field => o.onClass owner fun c => .ok { c with fields := c.fields ++ [field] }
  | .addParam owner method param =>
    o.onMethod owner method fun m => { m with parameters := m.parameters ++ [param] }
  | .addCall owner none call => o.onClass owner fun c => .ok { c with calls := c.calls ++ [call] }
  | .addCall owner (some method) call =>
    o.onMethod owner method fun m => { m with calls := m.calls ++ [call] }

end Outline

end Callscope
