import VersatileEngine.Node.Edit

/-!
# VersatileEngine.Schema.Options

The options of the exporters and importers, and the helper that all exporters share.
-/

namespace VersatileEngine

/-- `schema::ExportOptions`. -/
structure ExportOptions where
  indent : Int
  auto_ignore : Bool

def ExportOptions.default : ExportOptions := ⟨2, false⟩

/-- `schema::ImportOptions`. -/
structure ImportOptions where
  auto_insert : Bool
  auto_remove : Bool
  auto_update : Bool

/-- The default options. -/
def ImportOptions.default : ImportOptions := ⟨true, false, false⟩

/-- A child whose name begins with an underscore, when such are left out. -/
def isIgnoredChild (options : ExportOptions) (child : Tree) : Bool :=
  options.auto_ignore && child.name.head? = some 95

@[simp] theorem isIgnoredChild_default (child : Tree) : isIgnoredChild .default child = false := rfl

end VersatileEngine
