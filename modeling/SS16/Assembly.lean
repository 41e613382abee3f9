import SS16.Assembly.Emission
import SS16.Assembly.Layout
import SS16.Object.Basic

/-!
# SS16.Assembly — assembling a source

A source is swept twice: the first sweep fixes sections and symbols, the second lays down bytes and
relocations.  Together they make a relocatable object and a listing.
-/

namespace SS16

/-- An object and the listing that goes with it. -/
structure Assembly where
  object : Object
  listing : List Entry
  deriving DecidableEq

def Assembly.ofOutput (sections : List Extent) (symbols : SymbolTable) (out : Output) : Assembly :=
  ⟨⟨sections, symbols, out.relocations, out.code⟩, out.listing.toList⟩

def Program.assemble (p : Program) : Except Located Assembly :=
  let laid := p.layout .empty
  match laid.sections with
  | .error l => .error l
  | .ok sections =>
    match p.emit laid.symbols .fresh with
    | (_, some l) => .error l
    | (out, none) => .ok (.ofOutput sections laid.symbols out)

/-- Assembles a source text. -/
def assemble (source : String) : Except Located Assembly :=
  (Program.ofSource source).assemble

end SS16
