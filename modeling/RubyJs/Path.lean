import RubyJs.LogicalName

set_option autoImplicit false

/-! # Paths

A path is kept as it is spelled and read as a list of components. Empty parts mean nothing, nor does
`.` except at the front; two paths are the same, come before one another or start alike by their
components.

    a//b    a/./b    a/b/      the components a, b
    ./a                        the components ., a
    /a                         the components /, a
-/

namespace RubyJs

/-- A step of a path. -/
inductive Component where
  /-- The slash at the front of an absolute path. -/
  | root
  /-- A `.` at the front of a relative path. -/
  | current
  /-- `..` -/
  | parent
  | normal (name : String)
deriving DecidableEq, Repr

namespace Component

/-- The place of a kind of component in the order. -/
def rank : Component → Nat
  | root => 0
  | current => 1
  | parent => 2
  | normal _ => 3

/-- The name of a component, or nothing. -/
def text : Component → String
  | normal name => name
  | _ => ""

/-- Components are ordered by kind, then by name. -/
instance : Ord Component := ⟨compareLex (compareOn rank) (compareOn text)⟩

instance : Std.TransOrd Component :=
  inferInstanceAs (Std.TransCmp (compareLex (compareOn rank) (compareOn text)))

theorem eq_of_rank_text {a b : Component} (h : a.rank = b.rank) (h' : a.text = b.text) : a = b := by
  cases a <;> cases b <;> simp_all [rank, text]

instance : Std.LawfulEqOrd Component where
  eq_of_compare {a b} h := by
    obtain ⟨hr, ht⟩ := compareLex_eq_eq.mp h
    exact eq_of_rank_text (Std.LawfulEqOrd.eq_of_compare hr) (Std.LawfulEqOrd.eq_of_compare ht)

end Component

/-- A path as it is spelled. -/
structure Path where
  text : String
deriving DecidableEq, Repr

namespace Path

open LogicalName (segments isAbsolute)

/-! ## Components -/

/-- The component of a segment that is not the first one. -/
def componentOf? (segment : String) : Option Component :=
  if segment == "" || segment == "." then none
  else if segment == ".." then some .parent
  else some (.normal segment)

/-- The components of a path. -/
def components (p : Path) : List Component :=
  match segments p.text with
  | [] => []
  | first :: rest =>
    let front :=
      if isAbsolute p.text then [Component.root]
      else if first == "." then [.current]
      else (componentOf? first).toList
    front ++ rest.filterMap componentOf?

/-- Whether two paths are the same. -/
def same (p q : Path) : Bool := p.components == q.components

/-- The order of paths. -/
def order (p q : Path) : Ordering := compare p.components q.components

instance : Std.TransCmp order := inferInstanceAs (Std.TransCmp (compareOn components))

theorem order_eq_iff {p q : Path} : p.order q = .eq ↔ p.components = q.components :=
  Std.compare_eq_iff_eq

/-- Whether `p` is at or below `dir`. -/
def isWithin (p dir : Path) : Bool := dir.components.isPrefixOf p.components

/-- What is left of `p` below `dir`. -/
def below? (p dir : Path) : Option (List Component) :=
  if p.isWithin dir then some (p.components.drop dir.components.length) else none

/-- The names among components, with slashes between them. -/
def joinNames (cs : List Component) : String :=
  "/".intercalate (cs.filterMap fun c =>
    match c with
    | .normal name => some name
    | _ => none)

/-! ## Building -/

/-- The path `name` seen from `base`. An absolute name stays as it is. -/
def join (base : Path) (name : String) : Path :=
  if isAbsolute name || base.text.isEmpty then ⟨name⟩
  else if base.text.toList.getLast? == some '/' then ⟨base.text ++ name⟩
  else ⟨base.text ++ "/" ++ name⟩

/-! ## Parts -/

/-- The last name of a path, unless it ends in `..` or has no names. -/
def fileName? (p : Path) : Option String :=
  match p.components.getLast? with
  | some (.normal name) => some name
  | _ => none

/-- The part of a file name after its last dot. A dot at the front divides nothing. -/
def extensionOf? (name : String) : Option String :=
  let cs := name.toList
  let ext := (cs.reverse.takeWhile (· != '.')).reverse
  if cs.length ≤ ext.length + 1 then none else some (String.ofList ext)

/-- The extension of a path. -/
def extension? (p : Path) : Option String := p.fileName?.bind extensionOf?

/-- The processor for files with this path's extension. -/
def processor? (p : Path) : Option Processor := p.extension?.bind Processor.ofExtension?

/-- Segments, newest first, without those at the end that mean nothing. The first segment of a path
always counts. -/
def dropVoid : List String → List String
  | [] => []
  | [first] => [first]
  | last :: before => if (componentOf? last).isNone then dropVoid before else last :: before

/-- The directory that a path stands in, as it is spelled there. -/
def parent? (p : Path) : Option Path :=
  let newest := (segments p.text).reverse
  if isAbsolute p.text then
    match dropVoid newest with
    | _ :: before@(_ :: _) =>
      match dropVoid before with
      | [_] => some ⟨"/"⟩
      | kept => some ⟨"/".intercalate kept.reverse⟩
    | _ => none
  else
    match dropVoid newest with
    | [] => none
    | [first] => if first == "" then none else some ⟨""⟩
    | _ :: before => some ⟨"/".intercalate (dropVoid before).reverse⟩

end Path

end RubyJs
