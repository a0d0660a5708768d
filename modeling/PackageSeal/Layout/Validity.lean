import PackageSeal.Fault
import PackageSeal.Layout.Basic
import PackageSeal.Sidecar

/-!
# Valid layouts

The rules that a layout keeps, checked in a fixed order so that the first broken one is reported:
signature names are plain file names and all different, architectures are single path segments and
all different, templates hold known placeholders only, there are members, and the members of an
architecture have usable and different names and come from files of the package that no signature
overwrites.
-/

namespace PackageSeal.Layout

/-! ## Names -/

/-- Whether a text holds any of the given characters. -/
def holds (text : String) (chars : List Char) : Bool :=
  text.toList.any fun c => chars.contains c

/-- A signature is a plain file at the root, and no sidecar. -/
def checkArtifactName (name : String) : Except LayoutFault Unit :=
  if name = "" ∨ holds name ['/', '\\', '\x00'] then .error (.artifactNotPlain name)
  else if Sidecar.isMarkedName name then .error (.artifactLikeSidecar name)
  else .ok ()

/-- The rules for one architecture after others, given the names and the signatures taken so far. -/
def checkArchitecture (names artifacts : List String) (arch : Architecture) :
    Except LayoutFault Unit := do
  checkArtifactName arch.artifact
  if arch.name = "" ∨ holds arch.name ['/', '\\'] then throw (.architectureNotSegment arch.name)
  if names.contains arch.name then throw (.architectureTwice arch.name)
  if artifacts.contains arch.artifact then throw (.artifactTwice arch.artifact)

/-- The rules for architectures one after the other. -/
def checkArchitectures : List String → List String → List Architecture → Except LayoutFault Unit
  | _, _, [] => .ok ()
  | names, artifacts, arch :: rest => do
    checkArchitecture names artifacts arch
    checkArchitectures (arch.name :: names) (arch.artifact :: artifacts) rest

/-! ## Templates -/

/-- The first unknown placeholder of a text. The characters since an open brace are kept, last
first. -/
def checkBraces (template : String) : Option (List Char) → List Char → Except LayoutFault Unit
  | none, [] => .ok ()
  | some _, [] => .error (.placeholderOpen template)
  | none, c :: rest =>
    if c = '{' then checkBraces template (some [c]) rest else checkBraces template none rest
  | some opened, c :: rest =>
    if c = '}' then
      let placeholder := String.ofList (c :: opened).reverse
      if LayoutFault.knownPlaceholders.contains placeholder then checkBraces template none rest
      else .error (.placeholderUnknown placeholder template)
    else checkBraces template (some (c :: opened)) rest

/-- A text holds known placeholders only, and no open one. -/
def checkTemplateText (template : String) : Except LayoutFault Unit :=
  checkBraces template none template.toList

/-! ## Members -/

/-- Whether a source stays below the root, whatever the disk holds. -/
def staysInside (source : Path) : Bool :=
  source.components.all fun
    | .name _ => true
    | .here => true
    | _ => false

/-- Whether a source is the place of one of the signatures. -/
def isOverwritten (artifacts : List String) (source : Path) : Bool :=
  match source.components.filter (· != .here) with
  | [.name name] => artifacts.contains name
  | _ => false

/-- The rules for the members of an architecture one after the other, given the names so far. -/
def checkMembers (arch : String) (artifacts : List String) :
    List MemberName → List Member → Except LayoutFault Unit
  | _, [] => .ok ()
  | seen, member :: rest =>
    if !staysInside member.source then .error (.sourceOutside member.source)
    else if isOverwritten artifacts member.source then .error (.sourceOverwritten member.source)
    else if seen.contains member.name then .error (.declaredTwice arch member.name)
    else checkMembers arch artifacts (member.name :: seen) rest

/-- The members of an architecture: the common ones, then those of the templates. -/
def membersOf (layout : Layout) (arch : Architecture) : Except NameFault (List Member) := do
  let common ← layout.common.mapM Member.ofPath
  let expanded ← layout.templates.mapM fun template => template.memberFor arch
  pure (common ++ expanded)

/-- The coverage of an architecture, if its members keep the rules. -/
def coverageOf (layout : Layout) (arch : Architecture) : Except LayoutFault Coverage := do
  let members ← (layout.membersOf arch).mapError .memberName
  checkMembers arch.name layout.outputs [] members
  pure (.ofArchitecture arch members)

/-- The coverages of the architectures in order. -/
def architectureCoverages (layout : Layout) : Except LayoutFault (List Coverage) :=
  layout.architectures.mapM layout.coverageOf

/-! ## The whole -/

/-- All rules, in the order in which they are reported. -/
def check (layout : Layout) : Except LayoutFault Unit := do
  checkArtifactName layout.treeArtifact
  if layout.architectures.isEmpty then throw .noArchitectures
  checkArchitectures [] [layout.treeArtifact] layout.architectures
  layout.templates.forM fun template => do
    checkTemplateText template.name
    checkTemplateText template.source
  if layout.common.isEmpty && layout.templates.isEmpty then throw .noMembers
  discard layout.architectureCoverages

end PackageSeal.Layout
