import Devirt.Devirtualization.Pass

/-!
A phase runs passes over all bodies of a program and collects what they did.
-/

namespace Devirt

structure MethodOutcome where
  changed : Bool
  affected : OrderedSet ValueId
  deriving DecidableEq

/-- A pass over single bodies that is worth its time from a certain level on. -/
structure Pass (h : Hierarchy) where
  name : String
  minLevel : Level
  run : Resolver h → Body → Except Fault (PassRun h MethodOutcome)

namespace Pass

variable {h : Hierarchy}

def devirtualization (options : Options) : Pass h where
  name := "devirtualization"
  minLevel := .o2
  run resolver c := do
    let r ← c.devirtualize options resolver
    let outcome (d : Devirtualized) : MethodOutcome :=
      { changed := d.changed, affected := d.affected }
    return { r with result := r.result.map outcome }

/-- A pass that leaves every body as it is and always gives the same outcome. -/
def constant (name : String) (minLevel : Level) (outcome : MethodOutcome) : Pass h where
  name
  minLevel
  run resolver body := return { body, resolver, result := .ok outcome }

/-- The lowest level runs no pass at all. -/
def isActive (p : Pass h) (level : Level) : Bool :=
  0 < level.rank && p.minLevel.rank ≤ level.rank

end Pass

structure MethodReport where
  method : MethodRef
  changed : Bool
  affected : OrderedSet ValueId
  deriving DecidableEq

abbrev PhaseReport := List MethodReport

namespace PhaseReport

def changedMethods (r : PhaseReport) : List MethodRef := (r.filter (·.changed)).map (·.method)

def anyChanged (r : PhaseReport) : Bool := r.any (·.changed)

def totalAffected (r : PhaseReport) : Nat := (r.flatMap (·.affected.toList)).length

end PhaseReport

/-- The passes of a phase, of which the settings activate some. -/
structure Phase (h : Hierarchy) where
  settings : Settings
  passes : List (Pass h)

namespace Phase

variable {h : Hierarchy}

/-- Devirtualization, then the extra passes. -/
def standard (settings : Settings) (extra : List (Pass h)) : Phase h where
  settings
  passes := .devirtualization settings.options :: extra

def activePasses (p : Phase h) : List (Pass h) := p.passes.filter (·.isActive p.settings.level)

/-- Runs passes over one body, as far as none fails, on top of an outcome so far. -/
def runPasses (outcome : MethodOutcome) (resolver : Resolver h) (c : Body) :
    List (Pass h) → Except Fault (PassRun h MethodOutcome)
  | [] => return { body := c, resolver, result := .ok outcome }
  | p :: passes => do
    let r ← p.run resolver c
    match r.result with
    | .error e => return { r with result := .error e }
    | .ok o =>
      let outcome : MethodOutcome :=
        { changed := outcome.changed || o.changed
          affected := outcome.affected.insertAll o.affected.toList }
      runPasses outcome r.resolver r.body passes

/-- Runs passes over several bodies, as far as none fails. -/
def runBodies (passes : List (Pass h)) (resolver : Resolver h) :
    List Body → Except Fault (List Body × Except Failure PhaseReport)
  | [] => return ([], .ok [])
  | c :: bodies => do
    let r ← runPasses { changed := false, affected := ∅ } resolver c passes
    match r.result with
    | .error e => return (r.body :: bodies, .error e)
    | .ok o =>
      let (rest, report) ← runBodies passes r.resolver bodies
      let entry : MethodReport :=
        { method := c.method, changed := o.changed, affected := o.affected }
      return (r.body :: rest, report.map (entry :: ·))

/-- Without active passes nothing is reported. -/
def run (p : Phase h) (bodies : List Body) :
    Except Fault (List Body × Except Failure PhaseReport) :=
  if p.activePasses.isEmpty then return (bodies, .ok [])
  else runBodies p.activePasses ∅ bodies

end Phase

end Devirt
