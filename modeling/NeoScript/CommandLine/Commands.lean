import NeoScript.CommandLine.Arguments
import NeoScript.CommandLine.Artifacts
import NeoScript.Float.Shortest
import NeoScript.FlowGraph.Dot
import NeoScript.Optimizer.Account

/-!
# Commands — listing, drawing and optimizing contracts

* `DumpOptions.execute` — lists a script;
* `GraphOptions.execute` — draws its block graph;
* `OptimizeOptions.execute` — optimizes a contract and writes the result;
* `CommandLine.run` — reads a command line and executes it;
* `Ending.exitCode` — zero after success, one after a failed command, two after wrong arguments.
-/

namespace NeoScript

open Command

variable {m : Type → Type} [Monad m] [Host m]

/-! ## Listing and drawing -/

def DumpOptions.execute (o : DumpOptions) : Command m Unit := do
  let paths ← liftExcept (ArtifactPaths.resolve o.nef o.manifest o.debugInfo)
  let artifacts ← Artifacts.load paths o.lenient
  let sources ← (loadSources artifacts.debug : m Sources)
  let text ← ofExcept (Listing.render artifacts.nef artifacts.debug artifacts.manifest .n3 sources)
  match o.output with
  | some path => writeText path text
  | none => print text

/-- Draws the block graph of a script; methods begin where the manifest says. -/
def GraphOptions.execute (o : GraphOptions) : Command m Unit := do
  let paths ← liftExcept (ArtifactPaths.resolve o.nef o.manifest none)
  let artifacts ← Artifacts.load paths false
  let entries := match artifacts.manifest with
    | some manifest => manifest.offsets
    | none => []
  let script ← ofExcept (Script.decode artifacts.nef.script)
  let graph ← ofExcept (FlowGraph.build script entries)
  match o.output with
  | some path => writeText path graph.dot
  | none => printLine graph.dot

/-! ## Optimizing -/

def Report.summary (r : Report) : List String :=
  let change := (Binary.ofFloat (-r.sizeReduction)).signedFixed 2
  [s!"  size: {r.sizeBefore} -> {r.sizeAfter} bytes (" ++ change ++ "%)",
    s!"  instructions: {r.instructionsBefore} -> {r.instructionsAfter}",
    s!"  static fee: {r.feeBefore} -> {r.feeAfter}",
    if r.strategies.isEmpty then "  no strategy changed the program"
    else "  applied: " ++ ", ".intercalate r.strategies ++ s!" over {r.rounds} round(s)"]

namespace OptimizeOptions

def adjust (o : OptimizeOptions) (c : Config) : Config where
  level := o.level.getD c.level
  maxRounds := o.maxRounds.getD c.maxRounds
  arithmetic := c.arithmetic
  fusionThreshold := c.fusionThreshold
  verifyChecksum := c.verifyChecksum && !o.lenient

/-- The settings of a file, or the default ones, with those of the command line put over them. -/
def settings (o : OptimizeOptions) : Command m Config := do
  match o.config with
  | some path =>
      let text ← readText path
      return o.adjust (← ofExcept (Config.parse text))
  | none => return o.adjust .default

/-- Where the result goes: the given directory, or the one of the container. -/
def directory (o : OptimizeOptions) : String :=
  match o.outDir with
  | some path => path
  | none => (Path.parent? o.nef).getD ""

def writeContract (directory stem : String) (c : Contract) : Command m Unit := do
  let target (ending : String) : String := Path.join directory (stem ++ ".optimized" ++ ending)
  if directory != "" then createDirectories directory
  let bytes ← ofExcept c.nef.toBytes
  write (target ".nef") bytes
  writeText (target ".manifest.json") c.manifest.render
  match c.debug with
  | some info => write (target ".nefdbgnfo") (info.toArchive (stem ++ ".optimized.debug.json"))
  | none => return ()

def writeListing (directory stem : String) (c : Contract) : Command m Unit := do
  let sources ← (loadSources c.debug : m Sources)
  let text ← ofExcept (Listing.render c.nef c.debug (some c.manifest) .n3 sources)
  writeText (Path.join directory (stem ++ ".optimized.nef.txt")) text

def writeReport (o : OptimizeOptions) (done : Optimization) : Command m Unit := do
  match o.emit with
  | some path =>
      writeText path done.report.toJson.pretty
      printLine ("Wrote size/fee report to " ++ path)
  | none => return ()

/-- Writes report, trace and graph, if they are asked for. -/
def writeTrace (o : OptimizeOptions) (done : Optimization) : Command m Unit := do
  match o.emitDebug with
  | some path =>
      let graph ← ofExcept done.contract.graph
      writeText path (done.toJson graph).pretty
      printLine ("Wrote CFG trace debug report to " ++ path)
  | none => return ()

/-- Optimizes a contract.  Nothing is printed before all files are read, and what was written before
a failure stays. -/
def execute (o : OptimizeOptions) : Command m Unit := do
  let config ← o.settings
  let stem ← liftExcept (ArtifactPaths.stem o.nef)
  let paths ← liftExcept (ArtifactPaths.resolve o.nef o.manifest o.debugInfo)
  let artifacts ← Artifacts.load paths o.lenient
  let contract ← liftExcept (artifacts.contract paths.manifest)
  printLine ("Optimizing " ++ stem ++ ".nef to " ++ stem ++ ".optimized.nef...")
  let done ← ofExcept (optimize config contract)
  done.report.summary.forM printLine
  writeContract o.directory stem done.contract
  if o.assembly then writeListing o.directory stem done.contract
  o.writeReport done
  o.writeTrace done
  printLine "Optimization finished."

end OptimizeOptions

/-! ## Running -/

def Invocation.execute : Invocation → Command m Unit
  | dump options => options.execute
  | graph options => options.execute
  | optimize options => options.execute

inductive Ending where
  | finished
  | helped
  | failed (fault : CommandFault)
  | misused (fault : UsageFault)
  deriving DecidableEq, Repr

def Ending.exitCode : Ending → Nat
  | finished => 0
  | helped => 0
  | failed _ => 1
  | misused _ => 2

namespace CommandLine

def helpText : String :=
  "\n".intercalate [
    "Lists, draws and optimizes contracts.",
    "",
    "  dump NEF [--manifest PATH] [--debug-info PATH] [-o PATH] [--lenient]",
    "  cfg NEF [--manifest PATH] [-o PATH]",
    "  optimize NEF [--manifest PATH] [--debug-info PATH] [--level LEVEL] [--config PATH]",
    "           [--max-rounds N] [--lenient] [--assembly] [--emit PATH] [--emit-debug PATH]",
    "           [--out-dir DIR]",
    ""]

def run (arguments : List String) : m Ending := do
  match Invocation.parse arguments with
  | .error .helpWanted =>
      Host.print helpText
      return .helped
  | .error fault => return .misused fault
  | .ok invocation =>
      match ← invocation.execute.run with
      | .ok _ => return .finished
      | .error fault => return .failed fault

def simulate (arguments : List String) (store : FileStore) : Ending × Session :=
  (run arguments : StateM Session Ending).run (Session.start store)

end CommandLine

end NeoScript
