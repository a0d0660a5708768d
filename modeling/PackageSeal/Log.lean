import PackageSeal.Coverage
import PackageSeal.Disk.Access
import PackageSeal.Fault

/-!
# The log

What a run tells about itself while it goes on, and the two shapes of a run: `Logged` keeps a log
only, for runs that look at a disk; `Action` may also change the disk. Either stops at the first
failure; the log up to there, and for an action the disk as it is by then, are kept.
-/

namespace PackageSeal

/-! ## Events -/

/-- How much an event matters. -/
inductive Level where
  | warning
  | info
  | debug
deriving DecidableEq

/-- What an artifact was found to be. -/
inductive Status where
  /-- Its signature verifies under the key in it. -/
  | verified (key : PublicKey)
  /-- It is a placeholder. -/
  | unsigned
deriving DecidableEq

/-- One thing told. -/
inductive Event where
  /-- A member of so many octets is being framed. -/
  | framing (name : MemberName) (size : Nat) (source : Path)
  | sidecarWritten (sidecar : Path) (checksum : Checksum)
  /-- A public key beside an explicit private key is not looked at. -/
  | siblingIgnored (sibling key : Path)
  | keyUnavailable (problem : KeyProblem)
  | sealed (coverage : Coverage) (members : Nat)
  | placeholderWritten (coverage : Coverage)
  | checked (coverage : Coverage) (status : Status)

namespace Status

/-- A status in words. -/
def shown : Status → String
  | verified key =>
    "Verified " ++ Text.braced (" public_key: [" ++
      String.intercalate ", " (key.bytes.map fun b => toString b.toNat) ++ "] ")
  | unsigned => "Unsigned"

end Status

namespace Event

/-- How much an event matters. -/
def level : Event → Level
  | framing .. => .debug
  | sidecarWritten .. => .debug
  | siblingIgnored .. => .warning
  | keyUnavailable .. => .warning
  | sealed .. => .info
  | placeholderWritten .. => .info
  | checked .. => .debug

/-- The wording of an event. -/
def message : Event → String
  | framing name size source =>
    let shown := name.text
    let path := source.text
    s!"framing {shown} ({size} bytes from {path})"
  | sidecarWritten sidecar checksum => sidecar.text ++ ": " ++ checksum.text
  | siblingIgnored sibling key =>
    "ignoring " ++ sibling.text ++
      ": only a public key passed explicitly is checked against " ++ key.text
  | keyUnavailable problem =>
    "signing key unavailable, writing unsigned placeholders: " ++ problem.message
  | sealed coverage members =>
    let shown := coverage.shown
    s!"signed {shown} over {members} members"
  | placeholderWritten coverage => "wrote unsigned placeholder for " ++ coverage.shown
  | checked coverage status => coverage.shown ++ ": " ++ status.shown

end Event

/-! ## Runs that look -/

/-- A log and how the run that kept it ended. -/
structure Logged (ε α : Type) where
  log : List Event
  outcome : Except ε α

namespace Logged

variable {ε α β : Type}

/-- Ended with a result, nothing told. -/
def ok (a : α) : Logged ε α :=
  ⟨[], .ok a⟩

/-- Ended with a failure, nothing told. -/
def fail (e : ε) : Logged ε α :=
  ⟨[], .error e⟩

/-- Go on from a result. -/
def andThen (run : Logged ε α) (next : α → Logged ε β) : Logged ε β :=
  match run.outcome with
  | .error e => ⟨run.log, .error e⟩
  | .ok a => ⟨run.log ++ (next a).log, (next a).outcome⟩

instance : Monad (Logged ε) where
  pure := ok
  bind := andThen

instance : LawfulMonad (Logged ε) :=
  LawfulMonad.mk' (Logged ε)
    (fun run => by
      obtain ⟨log, outcome⟩ := run
      cases outcome <;> simp [Functor.map, andThen, ok])
    (fun a next => by simp [pure, bind, andThen, ok])
    (fun run f g => by
      obtain ⟨log, outcome⟩ := run
      cases outcome with
      | error e => rfl
      | ok a =>
        cases hf : (f a).outcome <;> simp [bind, andThen, hf, List.append_assoc])

/-- Tell an event. -/
def tell (event : Event) : Logged ε Unit :=
  ⟨[event], .ok ()⟩

/-- A result that was found without telling anything. -/
def ofExcept : Except ε α → Logged ε α
  | .ok a => ok a
  | .error e => fail e

/-- The same run with its failure seen otherwise. -/
def mapError {ε' : Type} (f : ε → ε') (run : Logged ε α) : Logged ε' α :=
  ⟨run.log, run.outcome.mapError f⟩

end Logged

/-! ## Runs that change a disk -/

/-- What a run leaves: the disk, its log, and how it ended. -/
structure Run (ε α : Type) where
  disk : Disk
  log : List Event
  outcome : Except ε α

/-- A run from a disk. -/
def Action (ε α : Type) : Type :=
  Disk → Run ε α

namespace Action

variable {ε α β : Type}

/-- End with a result. -/
def ok (a : α) : Action ε α :=
  fun disk => ⟨disk, [], .ok a⟩

/-- Go on from a result. -/
def andThen (run : Action ε α) (next : α → Action ε β) : Action ε β := fun disk =>
  let first := run disk
  match first.outcome with
  | .error e => ⟨first.disk, first.log, .error e⟩
  | .ok a =>
    let second := next a first.disk
    ⟨second.disk, first.log ++ second.log, second.outcome⟩

instance : Monad (Action ε) where
  pure := ok
  bind := andThen

instance : LawfulMonad (Action ε) :=
  LawfulMonad.mk' (Action ε)
    (fun run => by
      funext disk
      simp only [Functor.map, andThen, ok, Function.comp, id]
      cases h : (run disk).outcome with
      | error e => simp [← h]
      | ok a => simp [← h])
    (fun a next => by
      funext disk
      simp [pure, bind, andThen, ok])
    (fun run f g => by
      funext disk
      simp only [bind, andThen]
      cases (run disk).outcome with
      | error e => rfl
      | ok a =>
        cases hf : (f a (run disk).disk).outcome <;> simp [hf, List.append_assoc])

/-- Look at the disk and keep what that tells. -/
def look (run : Disk → Logged ε α) : Action ε α := fun disk =>
  ⟨disk, (run disk).log, (run disk).outcome⟩

/-- Tell an event. -/
def tell (event : Event) : Action ε Unit :=
  look fun _ => Logged.tell event

/-- End with what was found elsewhere. -/
def ofExcept (result : Except ε α) : Action ε α :=
  look fun _ => Logged.ofExcept result

/-- Change the disk, or leave it as it is and fail. -/
def change (step : Disk → Except ε Disk) : Action ε Unit := fun disk =>
  match step disk with
  | .error e => ⟨disk, [], .error e⟩
  | .ok changed => ⟨changed, [], .ok ()⟩

/-- The same run with its failure seen otherwise. -/
def mapError {ε' : Type} (f : ε → ε') (run : Action ε α) : Action ε' α := fun disk =>
  ⟨(run disk).disk, (run disk).log, (run disk).outcome.mapError f⟩

end Action

end PackageSeal
