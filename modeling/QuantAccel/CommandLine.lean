import QuantAccel.Scenario

/-!
# The command line

A run of the program as a function of its arguments and of the files that it can
read: it compiles a built-in scenario, runs it on a bench, and tells what came
of it. Arguments are read from left to right, and the first that is wrong ends
the run.
-/

namespace QuantAccel.CommandLine

/-- The lines that a run writes, how it ends, and its events. -/
structure Transcript where
  output : List String := []
  errors : List String := []
  status : Nat := 0
  events : List Event := []

/-- The text at a path, or why there is none. -/
abbrev Files := String → Except ReadFault String

def usage : List String :=
  let names := ", ".intercalate Scenario.names
  ["Usage: nnhw-cosim [OPTIONS] <SCENARIO>",
   "",
   "Compile a built-in model and verify it bit-exactly in co-simulation.",
   "",
   s!"Scenarios: {names}",
   "",
   "Options:",
   "  --hw <FILE>      Hardware config JSON (bus_width, chunk_size, ...)",
   "  --config <FILE>  Simulation config JSON (warmup_cycles, max_cycles, ...)",
   "  --seed <N>       Stimulus seed (overrides the config)",
   "  --par <N>        Output parallelism for every operator (default: 2)",
   "  --list           Print the address of every tensor and exit",
   "",
   "Environment:",
   "  RUST_LOG=info    Show pipeline stages and the memory map",
   "  RUST_LOG=debug   Show every register write and operator"]

/-! ## Arguments -/

structure Options where
  scenario : Option String := none
  hardwarePath : Option String := none
  simulationPath : Option String := none
  seed : Option Nat := none
  parallelism : Nat := 2
  list : Bool := false
  deriving Repr, DecidableEq

/-- Why arguments do not lead to a run. -/
inductive Refusal where
  | help
  | noScenario
  | numberWanted (flag : String)
  | pathWanted (flag : String)
  | unexpected (argument : String)
  deriving Repr, DecidableEq

def Refusal.transcript : Refusal → Transcript
  | help => { errors := usage }
  | noScenario => { errors := usage, status := 1 }
  | numberWanted flag => { errors := [flag ++ " requires a number"], status := 1 }
  | pathWanted flag => { errors := [flag ++ " requires a file path"], status := 1 }
  | unexpected argument => { errors := ["unexpected argument: " ++ argument], status := 1 }

/-- The number that decimal digits stand for. -/
def digitsValue (digits : List Char) : Nat :=
  digits.foldl (fun n c => 10 * n + (c.toNat - '0'.toNat)) 0

/-- A 64-bit number in decimal digits, with or without a plus sign. -/
def number? (text : String) : Option Nat :=
  let digits := match text.toList with
    | '+' :: rest => rest
    | all => all
  if digits.isEmpty || !digits.all (·.isDigit) then none
  else
    let n := digitsValue digits
    if n < Nat.pow 2 64 then some n else none

namespace Options

/-- Options from arguments. -/
def read (o : Options) : (arguments : List String) → Except Refusal Options
  | [] => .ok o
  | "--hw" :: path :: rest => read { o with hardwarePath := some path } rest
  | ["--hw"] => .error (.pathWanted "--hw")
  | "--config" :: path :: rest => read { o with simulationPath := some path } rest
  | ["--config"] => .error (.pathWanted "--config")
  | "--seed" :: value :: rest =>
    match number? value with
    | some n => read { o with seed := some n } rest
    | none => .error (.numberWanted "--seed")
  | ["--seed"] => .error (.numberWanted "--seed")
  | "--par" :: value :: rest =>
    match number? value with
    | some n => read { o with parallelism := n } rest
    | none => .error (.numberWanted "--par")
  | ["--par"] => .error (.numberWanted "--par")
  | "--list" :: rest => read { o with list := true } rest
  | "--help" :: _ | "-h" :: _ => .error .help
  | argument :: rest =>
    if o.scenario.isNone then read { o with scenario := some argument } rest
    else .error (.unexpected argument)

end Options

/-! ## Running -/

/-- The configuration of the hardware that the options name. -/
def hardware (files : Files) (path : Option String) : Except SimulationError HardwareConfig :=
  match path with
  | none => .ok {}
  | some path =>
    let config := match files path with
      | .ok text => HardwareConfig.ofText text
      | .error fault => .error (.unreadable path fault)
    config.mapError fun fault => .compile (.config fault)

/-- The settings of the simulation that the options name. -/
def simulation (files : Files) (path : Option String) : Except SimulationError SimulationConfig :=
  match path with
  | none => .ok {}
  | some path =>
    let config := match files path with
      | .ok text => SimulationConfig.ofText text
      | .error fault => .error (.unreadable path fault)
    config.mapError .config

/-- The address of every tensor of a design, from the lowest on. -/
def listing (design : Design) : List String :=
  let rows := design.graph.addressTable.mergeSort fun a b => a.2 ≤ b.2
  rows.map fun (name, address) => hexAddress address ++ "  " ++ name

/-- Differences that are told in full. -/
def shownMismatches : Nat := 10

/-- What a report makes a run tell. -/
def ofReport (report : Report) : Transcript :=
  let shown := (report.mismatches.take shownMismatches).map fun m =>
    let (output, index, expected, actual) := (m.output, m.index, m.expected, m.actual)
    s!"  {output}[{index}]: expected {expected}, got {actual}"
  { output := [report.text]
    errors := shown
    status := if report.verdict = .passed then 0 else 1 }

/-- A run with its outcome told. -/
def tell {α : Type} (success : α → Transcript) (x : Traced SimulationError α) : Transcript :=
  let told := match x.outcome with
    | .ok a => success a
    | .error e => { errors := ["error: " ++ e.message], status := 1 }
  { told with events := x.events }

/-- The run of one scenario. -/
def simulate (files : Files) (o : Options) (name : String) : Transcript :=
  let prepared : Traced SimulationError (HardwareConfig × SimulationConfig × Scenario) := do
    let config ← hardware files o.hardwarePath
    let settings ← simulation files o.simulationPath
    let settings := match o.seed with
      | some seed => { settings with seed := UInt64.ofNat seed }
      | none => settings
    let scenario ← Scenario.byName name o.parallelism settings.seed
    return (config, settings, scenario)
  match prepared.outcome with
  | .error _ => tell (fun _ => {}) prepared
  | .ok (config, settings, scenario) =>
    if o.list then
      tell (fun compiled => { output := listing compiled.design }) do
        let _ ← prepared
        scenario.compile config
    else
      let parallelism := o.parallelism
      let seed := settings.seed.toNat
      let banner := s!"==> Simulating: {name} (par {parallelism}, seed {seed})"
      let told := tell ofReport do
        let _ ← prepared
        scenario.run config settings
      { told with errors := banner :: told.errors }

/-- A run of the program. -/
def run (files : Files) (arguments : List String) : Transcript :=
  match Options.read {} arguments with
  | .error refusal => refusal.transcript
  | .ok o =>
    match o.scenario with
    | none => Refusal.noScenario.transcript
    | some name => simulate files o name

end QuantAccel.CommandLine
