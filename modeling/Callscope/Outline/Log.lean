/-!
# Log lines

What a program notes while it works, and computations that note something whether or not they
succeed.
-/

namespace Callscope

inductive LogLevel where
  | debug | info | warning | error
  deriving DecidableEq, Inhabited, Repr

namespace LogLevel

def name : LogLevel → String
  | debug => "DEBUG"
  | info => "INFO"
  | warning => "WARNING"
  | error => "ERROR"

end LogLevel

structure LogLine where
  level : LogLevel
  message : String
  deriving DecidableEq, Inhabited, Repr

/-- The lines that are shown: those for debugging only if asked for. -/
def LogLine.shown (verbose : Bool) (log : List LogLine) : List LogLine :=
  log.filter fun l => verbose || l.level ≠ .debug

/-- A result or a fault, and what was noted before it. -/
structure Noted (ε α : Type) where
  log : List LogLine
  result : Except ε α

namespace Noted

variable {ε α β : Type}

protected def pure (a : α) : Noted ε α := ⟨[], .ok a⟩

protected def bind (x : Noted ε α) (f : α → Noted ε β) : Noted ε β :=
  match x.result with
  | .error e => ⟨x.log, .error e⟩
  | .ok a => let y := f a; ⟨x.log ++ y.log, y.result⟩

instance : Monad (Noted ε) where
  pure := Noted.pure
  bind := Noted.bind

/-- Notes a line. -/
def note (level : LogLevel) (message : String) : Noted ε Unit := ⟨[⟨level, message⟩], .ok ()⟩

/-- Fails. -/
def fail (e : ε) : Noted ε α := ⟨[], .error e⟩

/-- A result or a fault with nothing noted. -/
def lift (r : Except ε α) : Noted ε α := ⟨[], r⟩

end Noted

end Callscope
