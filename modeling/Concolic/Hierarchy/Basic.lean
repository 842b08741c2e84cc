import Concolic.Table
import Concolic.Ty.Basic

/-!
# Class declarations

A `Hierarchy` is the set of declared classes of a program. Declarations may name classes that are
not declared and may be cyclic; nothing here assumes otherwise. `Hierarchy.standard` holds the
classes that every program has: the root class, the boxed primitives, the throwables that the
machine itself raises, and the two interfaces of arrays.
-/

namespace Concolic

structure FieldDecl where
  name : String
  ty : Ty
  isStatic : Bool
deriving DecidableEq

structure ClassDecl where
  name : String
  superClass : Option String
  interfaces : List String
  /-- Modifier bits; bits without a meaning here are kept. -/
  flags : UInt32
  fields : List FieldDecl
deriving DecidableEq

namespace ClassDecl

def interfaceFlag : UInt32 := 1

def abstractFlag : UInt32 := 2

def finalFlag : UInt32 := 4

/-- A class without members that extends the root class. -/
def new (name : String) : ClassDecl :=
  let name := slashed name
  { name, superClass := if name = Ty.rootClass then none else some Ty.rootClass,
    interfaces := [], flags := 0, fields := [] }

def extending (c : ClassDecl) (superClass : String) : ClassDecl :=
  { c with superClass := some (slashed superClass) }

def implementing (c : ClassDecl) (interface : String) : ClassDecl :=
  { c with interfaces := c.interfaces ++ [slashed interface] }

def withFlags (c : ClassDecl) (flags : UInt32) : ClassDecl := { c with flags }

def withField (c : ClassDecl) (name : String) (ty : Ty) (isStatic : Bool) : ClassDecl :=
  { c with fields := c.fields ++ [{ name, ty, isStatic }] }

def isInterface (c : ClassDecl) : Bool := c.flags &&& interfaceFlag == interfaceFlag

/-- The classes and interfaces that a declaration names as its direct supertypes. -/
def parents (c : ClassDecl) : List String := c.superClass.toList ++ c.interfaces

/-- A final class that holds a primitive in its field `value`. -/
def boxing (c : ClassDecl) (primitive : Ty) : ClassDecl :=
  (c.withFlags (c.flags ||| finalFlag)).withField "value" primitive false

end ClassDecl

/-- The declared classes by name. -/
structure Hierarchy where
  classes : Table String ClassDecl

namespace Hierarchy

def get? (h : Hierarchy) (name : String) : Option ClassDecl := h.classes.get? name

def contains (h : Hierarchy) (name : String) : Bool := h.classes.contains name

def size (h : Hierarchy) : Nat := h.classes.size

/-- Declares a class, in place of an earlier declaration of the same name. -/
def insert (h : Hierarchy) (c : ClassDecl) : Hierarchy := ⟨h.classes.insert c.name c⟩

/-- The interfaces that every array implements. -/
def arrayInterfaces : List String := ["java/lang/Cloneable", "java/io/Serializable"]

def boxes : List ClassDecl :=
  let number := "java/lang/Number"
  [(ClassDecl.new "java/lang/Boolean").boxing .bool,
   (ClassDecl.new "java/lang/Character").boxing .char,
   ((ClassDecl.new "java/lang/Byte").extending number).boxing .byte,
   ((ClassDecl.new "java/lang/Short").extending number).boxing .short,
   ((ClassDecl.new "java/lang/Integer").extending number).boxing .int,
   ((ClassDecl.new "java/lang/Long").extending number).boxing .long,
   ((ClassDecl.new "java/lang/Float").extending number).boxing .float,
   ((ClassDecl.new "java/lang/Double").extending number).boxing .double]

/-- The throwable classes, each with the one it extends. -/
def throwables : List (String × String) :=
  [("java/lang/Throwable", Ty.rootClass),
   ("java/lang/Exception", "java/lang/Throwable"),
   ("java/lang/Error", "java/lang/Throwable"),
   ("java/lang/RuntimeException", "java/lang/Exception"),
   ("java/lang/NullPointerException", "java/lang/RuntimeException"),
   ("java/lang/ArithmeticException", "java/lang/RuntimeException"),
   ("java/lang/ClassCastException", "java/lang/RuntimeException"),
   ("java/lang/IllegalArgumentException", "java/lang/RuntimeException"),
   ("java/lang/IllegalStateException", "java/lang/RuntimeException"),
   ("java/lang/IndexOutOfBoundsException", "java/lang/RuntimeException"),
   ("java/lang/ArrayIndexOutOfBoundsException", "java/lang/IndexOutOfBoundsException"),
   ("java/lang/NegativeArraySizeException", "java/lang/RuntimeException")]

def standardClasses : List ClassDecl :=
  [Ty.rootClass, Ty.stringClass, Ty.classClass, "java/lang/Number"].map ClassDecl.new ++ boxes ++
    throwables.map (fun (name, parent) => (ClassDecl.new name).extending parent) ++
    arrayInterfaces.map fun name =>
      (ClassDecl.new name).withFlags (ClassDecl.interfaceFlag ||| ClassDecl.abstractFlag)

/-- The classes that every program has. -/
def standard : Hierarchy := ⟨⟨standardClasses.map fun c => (c.name, c)⟩⟩

/-- The standard classes and the given ones, later declarations replacing earlier ones. -/
def ofClasses (cs : List ClassDecl) : Hierarchy := cs.foldl insert standard

end Hierarchy

end Concolic
