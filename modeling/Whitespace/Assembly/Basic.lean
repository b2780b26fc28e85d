import Whitespace.Assembly.Decoding
import Whitespace.Log.Event
import Whitespace.Program

/-!
# Assembly

Assembling decodes a source and then links it: marks are dropped, and the label
of every branch is replaced by the place that it was marked at.  There is a
program only if both succeed.
-/

namespace Whitespace

namespace Decoding

/-- The target of a label, or the error that the label is marked nowhere. -/
def resolve (d : Decoding) (l : Label) : Except AssemblyError Target :=
  match d.labels.find? l with
  | some index => .ok ⟨l, index⟩
  | none => .error (.labelNotFound l)

/-- Resolves every branch.  The first one that fails is the error. -/
def link (d : Decoding) : Except AssemblyError Program :=
  Program.ofList <$> d.code.mapM (Instruction.mapTargetM d.resolve)

def program (d : Decoding) : Except AssemblyError Program :=
  match d.fault with
  | some e => .error e
  | none => d.link

/-- What decoding reports: every complete command and, unless decoding stopped
short, the totals. -/
def events (d : Decoding) : List Event :=
  d.decoded.toList.map (fun (index, c) => .decoded index c) ++
    match d.fault with
    | some _ => []
    | none => [.decodedSource d.size d.labels.size]

end Decoding

def assemble (source : List UInt8) : Except AssemblyError Program :=
  (Decoding.ofSource source).program

/-- Assembles a source and enters what happens into a log. -/
def assembleLogged (source : List UInt8) (log : Log) : Except AssemblyError Program × Log :=
  let d := Decoding.ofSource source
  (d.program, log.recordAll d.events)

end Whitespace
