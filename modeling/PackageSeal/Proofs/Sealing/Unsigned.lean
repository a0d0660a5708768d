import PackageSeal.Proofs.Disk.Emptied
import PackageSeal.Proofs.Keys
import PackageSeal.Proofs.Schemes
import PackageSeal.Proofs.Sealing.Refusals
import PackageSeal.Proofs.Sealing.Sealed

/-!
# Sealing without a key

A run without a key writes the same files as one with a key, only empty ones for signatures, and
what files hold decides about no write and no look at a directory. So the two go side by side, on
disks that stay the same but for contents (`Writes.unsigned`), and whatever is wrong with the files
of a key pair stops no run (`ends_unsigned`). What is reported is what loading the key came to
(`withLocation_decides`).
-/

namespace PackageSeal

/-! ## Sidecars -/

namespace Sidecar

variable {before after other : Disk}

theorem write_sameTree {path result : Path} (hs : before.SameTree other)
    (h : (write path).Ends before result after) :
    ∃ after', (write path).Ends other result after' ∧ after.SameTree after' := by
  obtain ⟨hresult, content, hread, hwrite⟩ := ends_write.mp h
  obtain ⟨content', hread'⟩ := hs.read hread
  obtain ⟨after', hwrite', hs'⟩ := hs.write hwrite (utf8 (Checksum.ofContent content').text)
  exact ⟨after', ends_write.mpr ⟨hresult, content', hread', hwrite'⟩, hs'⟩

theorem forM_write_sameTree {paths : List Path} (hs : before.SameTree other)
    (h : (paths.forM fun path => discard (write path)).Ends before () after) :
    ∃ after', (paths.forM fun path => discard (write path)).Ends other () after' ∧
      after.SameTree after' := by
  induction paths generalizing before other with
  | nil =>
      obtain rfl := Action.ends_forM_nil.mp h
      exact ⟨other, Action.ends_forM_nil.mpr rfl, hs⟩
  | cons path rest ih =>
      obtain ⟨middle, hfirst, hrest⟩ := Action.ends_forM_cons.mp h
      obtain ⟨result, hwrite⟩ := Action.ends_discard.mp hfirst
      obtain ⟨middle', hwrite', hmiddle⟩ := write_sameTree hs hwrite
      obtain ⟨after', hrest', hafter⟩ := ih hmiddle hrest
      exact ⟨after', Action.ends_forM_cons.mpr
        ⟨middle', Action.ends_discard.mpr ⟨result, hwrite'⟩, hrest'⟩, hafter⟩

/-- The same sidecars are written on disks that differ in contents only. -/
theorem writeAll_sameTree {root : Path} {excluded : List String} {count : Nat}
    (hs : before.SameTree other) (h : (writeAll root excluded).Ends before count after) :
    ∃ after', (writeAll root excluded).Ends other count after' ∧ after.SameTree after' := by
  obtain ⟨paths, hpaths, hcount, hwrites⟩ := ends_writeAll.mp h
  obtain ⟨after', hwrites', hafter⟩ := forM_write_sameTree hs hwrites
  have hpaths' : subjects other root excluded = .ok paths := by
    rw [← hpaths, subjects, subjects, filesUnder, filesUnder, hs.filesUnder_eq]
  exact ⟨after', ends_writeAll.mpr ⟨paths, hpaths', hcount, hwrites'⟩, hafter⟩

end Sidecar

namespace Sealing

variable {scheme : SignatureScheme} {root : Path} {layout : Layout} {seed? : Option Seed}
  {before after other first : Disk}

/-! ## The same run with empty signatures -/

/-- Where signatures can be written, so can empty files. -/
theorem Inscribed.unsigned {targets : List Coverage} (first' : Disk)
    (h : Inscribed scheme seed? root first before targets after) (hs : before.SameTree other) :
    ∃ after', Inscribed scheme none root first' other targets after' ∧ after.SameTree after' := by
  induction h generalizing other with
  | nil => exact ⟨other, .nil, hs⟩
  | cons _ hwrite _ ih =>
      obtain ⟨middle', hwrite', hmiddle⟩ := hs.write hwrite []
      obtain ⟨after', hrest', hafter⟩ := ih hmiddle
      exact ⟨after', .cons rfl hwrite' hrest', hafter⟩

/-- **Where everything can be written with a seed or without, it can be written without.** -/
theorem Writes.unsigned {signed listed whole : Disk} {paths : List Path} {count : Nat}
    (h : Writes scheme root layout seed? before signed listed whole after paths count) :
    ∃ signed' listed' whole' after',
      Writes scheme root layout none before signed' listed' whole' after' paths count := by
  obtain ⟨targets, htargets, hsigned, hpaths⟩ := h.architectures
  obtain ⟨others, hlisted, hcount⟩ := h.sidecars
  obtain ⟨content, -, hwrite⟩ := h.tree
  obtain ⟨path, hlast⟩ := h.last
  obtain ⟨signed', hsigned', hs⟩ := hsigned.unsigned before (.refl before)
  obtain ⟨listed', hlisted', hs⟩ := Sidecar.writeAll_sameTree hs hlisted
  obtain ⟨whole', hwrite', hs⟩ := hs.write hwrite []
  obtain ⟨after', hlast', -⟩ := Sidecar.write_sameTree hs hlast
  exact ⟨signed', listed', whole', after', ⟨targets, htargets, hsigned', hpaths⟩,
    ⟨others, hlisted', hcount⟩, ⟨[], rfl, hwrite'⟩, ⟨path, hlast'⟩⟩

variable {key : Except KeyProblem Seed} {report : Report} {problem : KeyProblem} {failure : Failure}

/-- **Whatever is wrong with a key stops no run**: one that ends with some key ends without, and
writes the same files. -/
theorem ends_unsigned (hS : scheme.Streams) (problem : KeyProblem)
    (h : (withKey scheme root layout key).Ends before report after) :
    ∃ after', (withKey scheme root layout (.error problem)).Ends before
      ⟨.unsigned problem, report.artifacts, report.sidecars⟩ after' := by
  obtain ⟨signed, listed, whole, hphases⟩ := (ends_withKey hS).mp h
  obtain ⟨signed', listed', whole', after', hwrites⟩ := hphases.toWrites.unsigned
  exact ⟨after', (ends_withKey hS).mpr ⟨signed', listed', whole', hwrites, hphases.check, rfl⟩⟩

/-- Without a key nothing but accesses can fail once the layout is checked. -/
theorem isAccess_of_unsigned (hcheck : layout.check = .ok ())
    (h : (withKey scheme root layout (.error problem)).Fails before failure after) :
    failure.IsAccess := by
  by_contra hother
  obtain ⟨fault, hbroken, -⟩ | ⟨-, seed, -, hkey, -⟩ := (fails_withKey_iff hother).mp h
  · rw [hcheck] at hbroken
    cases hbroken
  · cases hkey

/-! ## Sealing with the key at a location -/

variable {location : KeyLocation}

/-- A run with the key at a location goes by what loading the key comes to. -/
theorem ends_withLocation : (withLocation scheme root layout location).Ends before report after ↔
    (withKey scheme root layout (location.load scheme before).outcome).Ends
      before report after := by
  simp only [withLocation, loadKey, Action.ends_bind, Action.ends_look, Except.ok.injEq]
  constructor
  · rintro ⟨_, _, ⟨rfl, rfl⟩, hends⟩
    exact hends
  · intro hends
    exact ⟨_, before, ⟨rfl, rfl⟩, hends⟩

theorem fails_withLocation :
    (withLocation scheme root layout location).Fails before failure after ↔
      (withKey scheme root layout (location.load scheme before).outcome).Fails before failure
        after := by
  simp only [withLocation, loadKey, Action.fails_bind, Action.fails_look, Action.ends_look,
    Except.ok.injEq, reduceCtorEq, false_and, false_or]
  constructor
  · rintro ⟨_, _, ⟨rfl, rfl⟩, hfails⟩
    exact hfails
  · intro hfails
    exact ⟨_, before, ⟨rfl, rfl⟩, hfails⟩

/-- **The files of the key pair decide between a signed and an unsigned package**, and nothing else
does. A key pair is loaded exactly where its files hold it, and of all other files it is told what
is wrong, which is that a key is missing exactly if there is nothing at the path of the private key.
A run that ends with a checked layout reports the public key of the pair, or what was wrong. What
was wrong stops no run: whatever run ends with some key ends so as well, with the same files, and
where it fails, it fails for want of access. -/
theorem withLocation_decides (hS : scheme.Streams) (hcheck : layout.check = .ok ()) (root : Path)
    (location : KeyLocation) (disk : Disk) :
    (∀ seed, (location.load scheme disk).outcome = .ok seed ↔ location.Usable scheme disk seed) ∧
    (∀ problem, (location.load scheme disk).outcome = .error problem ↔
      location.Unusable scheme disk problem) ∧
    (∀ path, (location.load scheme disk).outcome = .error (.missing path) ↔
      path = location.privatePath ∧ disk.read path = .error .notFound) ∧
    (∀ report after, (withLocation scheme root layout location).Ends disk report after →
      (∃ seed, (location.load scheme disk).outcome = .ok seed ∧
        report.outcome = .signed (scheme.publicKey seed)) ∨
      ∃ problem, (location.load scheme disk).outcome = .error problem ∧
        report.outcome = .unsigned problem) ∧
    ∀ problem, (location.load scheme disk).outcome = .error problem →
      (∀ key report after, (withKey scheme root layout key).Ends disk report after →
        ∃ after', (withLocation scheme root layout location).Ends disk
          ⟨.unsigned problem, report.artifacts, report.sidecars⟩ after') ∧
      ∀ failure after, (withLocation scheme root layout location).Fails disk failure after →
        failure.IsAccess := by
  refine ⟨fun seed => KeyLocation.load_eq_ok_iff, fun problem => KeyLocation.load_eq_error_iff,
    fun path => KeyLocation.load_missing_iff, fun report after hends => ?_,
    fun problem hproblem => ⟨fun key report after hends => ?_, fun failure after hfails => ?_⟩⟩
  · obtain ⟨signed, listed, whole, hphases⟩ := (ends_withKey hS).mp (ends_withLocation.mp hends)
    have houtcome := hphases.outcome
    cases hkey : (location.load scheme disk).outcome with
    | ok seed =>
        rw [hkey] at houtcome
        exact .inl ⟨seed, rfl, houtcome⟩
    | error problem =>
        rw [hkey] at houtcome
        exact .inr ⟨problem, rfl, houtcome⟩
  · obtain ⟨after', hends'⟩ := ends_unsigned hS problem hends
    exact ⟨after', ends_withLocation.mpr (by rw [hproblem]; exact hends')⟩
  · rw [fails_withLocation, hproblem] at hfails
    exact isAccess_of_unsigned hcheck hfails

/-- A disk with the files of a key pair at the top. -/
def keyDisk (privateKey publicKey : Bytes) : Disk :=
  .flat [("private_key", privateKey), ("public_key", publicKey)]

/-- A key pair is loaded from its files, and a private key that is too short is told; without any,
the small package is left unsigned. -/
theorem withLocation_decides_small :
    ((KeyLocation.directory ⟨"."⟩).load Ed25519.scheme
      (keyDisk smallSeed.bytes (Ed25519.scheme.publicKey smallSeed).bytes)).outcome =
        .ok smallSeed ∧
    ((KeyLocation.directory ⟨"."⟩).load Ed25519.scheme (keyDisk [1] [])).outcome =
      .error (.wrongLength ⟨"./private_key"⟩ 32 1) ∧
    ∃ after, (withLocation Ed25519.scheme ⟨"."⟩ small (.directory ⟨"keys"⟩)).Ends
      (smallDisk [] [] [] [] []) ⟨.unsigned (.missing ⟨"keys/private_key"⟩), [⟨"./s"⟩, ⟨"./t"⟩], 3⟩
      after := by
  have hread : ∀ privateKey publicKey, (keyDisk privateKey publicKey).read ⟨"./private_key"⟩ =
      .ok privateKey ∧ (keyDisk privateKey publicKey).read ⟨"./public_key"⟩ = .ok publicKey :=
    fun _ _ => ⟨rfl, rfl⟩
  have hdecides := fun location disk => withLocation_decides Ed25519.scheme_streams
    (rfl : small.check = .ok ()) ⟨"."⟩ location disk
  refine ⟨?_, ?_, ?_⟩
  · obtain ⟨hloads, -⟩ := hdecides (.directory ⟨"."⟩) (keyDisk smallSeed.bytes
      (Ed25519.scheme.publicKey smallSeed).bytes)
    refine (hloads smallSeed).mpr ⟨(hread _ _).1, ?_⟩
    rintro path hpath -
    obtain rfl := Option.some.inj hpath
    exact (hread _ _).2
  · obtain ⟨-, htells, -⟩ := hdecides (.directory ⟨"."⟩) (keyDisk [1] [])
    exact (htells _).mpr (.unfitPrivate (.wrongLength (hread _ _).1 (by decide)))
  · obtain ⟨-, -, hmissing, -, hstops⟩ := hdecides (.directory ⟨"keys"⟩) (smallDisk [] [] [] [] [])
    obtain ⟨hends, -⟩ := hstops _ ((hmissing ⟨"keys/private_key"⟩).mpr ⟨rfl, rfl⟩)
    obtain ⟨_, _, hsigned⟩ := small_furnished [] [] [] [] [] Ed25519.scheme_streams (.ok smallSeed)
    exact hends _ _ _ hsigned

end Sealing

end PackageSeal
