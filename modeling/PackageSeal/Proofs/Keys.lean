import PackageSeal.KeyLocation
import PackageSeal.Proofs.Disk.Access
import PackageSeal.Proofs.Failures

/-!
# Loading a key pair

Which files make a key pair usable (`Usable`), and what is wrong with all others (`Unusable`): the
private key is looked at first, and a public key only if one is named and there is something at its
path. Loading finds exactly these (`load_eq_ok_iff`, `load_eq_error_iff`).
-/

namespace PackageSeal.KeyLocation

variable {scheme : SignatureScheme} {location : KeyLocation} {disk : Disk} {path : Path}
  {size : Nat} {seed : Seed} {problem : KeyProblem}

/-! ## Key files -/

/-- A file cannot be a key of so many octets: it cannot be read, for another cause than that it is
not there, or it has a different number of octets. -/
inductive Unfit (disk : Disk) (path : Path) (size : Nat) : KeyProblem → Prop where
  | unreadable {cause : IoError} (hread : disk.read path = .error cause)
      (hthere : cause ≠ .notFound) : Unfit disk path size (.unreadable path cause)
  | wrongLength {content : Bytes} (hread : disk.read path = .ok content)
      (hlength : content.length ≠ size) :
      Unfit disk path size (.wrongLength path size content.length)

theorem readKey_of_error {cause : IoError} (h : disk.read path = .error cause) :
    readKey disk path size =
      .error (if cause = .notFound then .missing path else .unreadable path cause) := by
  rw [readKey, h]
  cases cause <;> rfl

theorem readKey_of_ok {content : Bytes} (h : disk.read path = .ok content) :
    readKey disk path size = if hlength : content.length = size then .ok ⟨content, hlength⟩
      else .error (.wrongLength path size content.length) := by
  rw [readKey, h]
  by_cases hlength : content.length = size
  · simp only [Octets.ofBytes?, dif_pos hlength]
  · simp only [Octets.ofBytes?, dif_neg hlength]

/-- A file is read as a key if it has so many octets. -/
theorem readKey_eq_ok_iff {key : Octets size} :
    readKey disk path size = .ok key ↔ disk.read path = .ok key.bytes := by
  constructor
  · intro h
    cases hread : disk.read path with
    | error cause =>
        rw [readKey_of_error hread] at h
        cases h
    | ok content =>
        rw [readKey_of_ok hread] at h
        split_ifs at h
        rw [← Except.ok.inj h]
  · intro h
    rw [readKey_of_ok h, dif_pos key.length_eq]

/-- Any other file is missing or unfit. -/
theorem readKey_eq_error_iff : readKey disk path size = .error problem ↔
    (disk.read path = .error .notFound ∧ problem = .missing path) ∨
      Unfit disk path size problem := by
  constructor
  · intro h
    cases hread : disk.read path with
    | error cause =>
        rw [readKey_of_error hread, Except.error.injEq] at h
        subst h
        split_ifs with hcause
        · exact .inl ⟨congrArg Except.error hcause, rfl⟩
        · exact .inr (.unreadable hread hcause)
    | ok content =>
        rw [readKey_of_ok hread] at h
        split_ifs at h with hlength
        obtain rfl := Except.error.inj h
        exact .inr (.wrongLength hread hlength)
  · rintro (⟨hread, rfl⟩ | ⟨hread, hthere⟩ | ⟨hread, hlength⟩)
    · rw [readKey_of_error hread, if_pos rfl]
    · rw [readKey_of_error hread, if_neg hthere]
    · rw [readKey_of_ok hread, dif_neg hlength]

/-- A path leads somewhere if there is something at it. -/
theorem isThere_iff : disk.isThere path = true ↔ ∃ loc, disk.Leads path loc := by
  unfold Disk.isThere Disk.Leads
  cases disk.find path with
  | error cause => simp
  | ok found => exact iff_of_true rfl ⟨found.1, found.2, rfl⟩

/-- Where there is something, reading does not fail for want of it. -/
theorem read_ne_notFound {loc : Location} (h : disk.Leads path loc) :
    disk.read path ≠ .error .notFound := by
  obtain ⟨node, hfind⟩ := h
  rw [Disk.read, hfind]
  cases node with
  | file content => intro hread; cases hread
  | link target => intro hread; cases hread
  | dir entries => intro hread; cases hread

/-! ## Key pairs -/

/-- The files are those of this seed's key pair: the private key holds the seed, and where there is
something at the path of a public key, this holds the public key of the seed. -/
structure Usable (scheme : SignatureScheme) (location : KeyLocation) (disk : Disk) (seed : Seed) :
    Prop where
  read_private : disk.read location.privatePath = .ok seed.bytes
  read_public : ∀ path, location.publicPath? = some path → (∃ loc, disk.Leads path loc) →
    disk.read path = .ok (scheme.publicKey seed).bytes

/-- What is wrong with files that are no key pair. The public key comes in only if there is
something at its path and the private key has a seed. -/
inductive Unusable (scheme : SignatureScheme) (location : KeyLocation) (disk : Disk) :
    KeyProblem → Prop where
  | missing (hread : disk.read location.privatePath = .error .notFound) :
      Unusable scheme location disk (.missing location.privatePath)
  | unfitPrivate {problem : KeyProblem} (hunfit : Unfit disk location.privatePath 32 problem) :
      Unusable scheme location disk problem
  | unfitPublic {problem : KeyProblem} {seed : Seed} {path : Path} {loc : Location}
      (hseed : disk.read location.privatePath = .ok seed.bytes)
      (hpath : location.publicPath? = some path) (hleads : disk.Leads path loc)
      (hunfit : Unfit disk path 32 problem) : Unusable scheme location disk problem
  | mismatch {seed : Seed} {path : Path} {stored : PublicKey}
      (hseed : disk.read location.privatePath = .ok seed.bytes)
      (hpath : location.publicPath? = some path) (hread : disk.read path = .ok stored.bytes)
      (hne : stored ≠ scheme.publicKey seed) : Unusable scheme location disk (.mismatch path)

/-- What comes of a seed that was read: the public key has to be its own if one is named and
there. -/
def withPublic (scheme : SignatureScheme) (location : KeyLocation) (disk : Disk) (seed : Seed) :
    Except KeyProblem Seed :=
  match location.publicPath? with
  | none => .ok seed
  | some path =>
    if disk.isThere path then do
      let stored ← readKey disk path 32
      if stored = scheme.publicKey seed then .ok seed else .error (.mismatch path)
    else .ok seed

/-- Loading reads the private key and compares the public key with it. -/
theorem outcome_load : (location.load scheme disk).outcome =
    readKey disk location.privatePath 32 >>= withPublic scheme location disk := by
  have hwarn : ∀ key : Path, (warnOfSibling disk key).outcome = .ok () := by
    intro key
    unfold warnOfSibling
    dsimp only
    split_ifs
    · rfl
    · rfl
  unfold load
  rw [Logged.outcome_bind, Logged.outcome_ofExcept]
  congr 1
  funext seed
  unfold withPublic
  cases location.publicPath? with
  | none =>
      rw [Logged.outcome_bind, hwarn]
      rfl
  | some path =>
      dsimp only
      split_ifs
      · rw [Logged.outcome_bind, Logged.outcome_ofExcept]
        congr 1
        funext stored
        split_ifs
        · rfl
        · rfl
      · rfl

/-- Nothing is compared where no public key is named, or nothing is at its path. -/
theorem withPublic_of_absent
    (h : ∀ path, location.publicPath? = some path → ¬ ∃ loc, disk.Leads path loc) :
    withPublic scheme location disk seed = .ok seed := by
  unfold withPublic
  cases hpath : location.publicPath? with
  | none => rfl
  | some path => exact if_neg (mt isThere_iff.mp (h path hpath))

theorem withPublic_of_there {loc : Location} (hpath : location.publicPath? = some path)
    (hleads : disk.Leads path loc) : withPublic scheme location disk seed = (do
      let stored ← readKey disk path 32
      if stored = scheme.publicKey seed then .ok seed else .error (.mismatch path)) := by
  unfold withPublic
  rw [hpath]
  exact if_pos (isThere_iff.mpr ⟨loc, hleads⟩)

/-- The seed is taken if the public key is its own, or is not there. -/
theorem withPublic_eq_ok_iff {other : Seed} : withPublic scheme location disk seed = .ok other ↔
    seed = other ∧ ∀ path, location.publicPath? = some path → (∃ loc, disk.Leads path loc) →
      disk.read path = .ok (scheme.publicKey seed).bytes := by
  by_cases h : ∃ path loc, location.publicPath? = some path ∧ disk.Leads path loc
  · obtain ⟨path, loc, hpath, hleads⟩ := h
    rw [withPublic_of_there hpath hleads, bind_eq_ok_iff]
    simp only [readKey_eq_ok_iff, hpath, Option.some.injEq, forall_eq']
    constructor
    · rintro ⟨stored, hread, hsame⟩
      split_ifs at hsame with heq
      exact ⟨Except.ok.inj hsame, fun _ => heq ▸ hread⟩
    · rintro ⟨rfl, hread⟩
      exact ⟨_, hread ⟨loc, hleads⟩, if_pos rfl⟩
  · have habsent : ∀ path, location.publicPath? = some path → ¬ ∃ loc, disk.Leads path loc :=
      fun path hpath hthere => h ⟨path, hthere.choose, hpath, hthere.choose_spec⟩
    rw [withPublic_of_absent habsent, Except.ok.injEq]
    exact (and_iff_left fun path hpath hthere => absurd hthere (habsent path hpath)).symm

/-- What is wrong with the public key otherwise. -/
theorem withPublic_eq_error_iff : withPublic scheme location disk seed = .error problem ↔
    ∃ path loc, location.publicPath? = some path ∧ disk.Leads path loc ∧
      (Unfit disk path 32 problem ∨ ∃ stored : PublicKey, disk.read path = .ok stored.bytes ∧
        stored ≠ scheme.publicKey seed ∧ problem = .mismatch path) := by
  constructor
  · intro h
    by_cases hthere : ∃ path loc, location.publicPath? = some path ∧ disk.Leads path loc
    · obtain ⟨path, loc, hpath, hleads⟩ := hthere
      rw [withPublic_of_there hpath hleads, bind_eq_error_iff] at h
      refine ⟨path, loc, hpath, hleads, ?_⟩
      obtain hread | ⟨stored, hread, hdiffers⟩ := h
      · -- The file is there, so it is not missing.
        obtain ⟨hmissing, -⟩ | hunfit := readKey_eq_error_iff.mp hread
        · exact absurd hmissing (read_ne_notFound hleads)
        · exact .inl hunfit
      · split_ifs at hdiffers with hne
        exact .inr ⟨stored, readKey_eq_ok_iff.mp hread, hne, (Except.error.inj hdiffers).symm⟩
    · rw [withPublic_of_absent fun path hpath hleads =>
        hthere ⟨path, hleads.choose, hpath, hleads.choose_spec⟩] at h
      cases h
  · rintro ⟨path, loc, hpath, hleads, hcause⟩
    rw [withPublic_of_there hpath hleads, bind_eq_error_iff]
    obtain hunfit | ⟨stored, hread, hne, rfl⟩ := hcause
    · exact .inl (readKey_eq_error_iff.mpr (.inr hunfit))
    · exact .inr ⟨stored, readKey_eq_ok_iff.mpr hread, if_neg hne⟩

/-- **A key pair is loaded exactly from the files that hold it.** -/
theorem load_eq_ok_iff :
    (location.load scheme disk).outcome = .ok seed ↔ Usable scheme location disk seed := by
  rw [outcome_load, bind_eq_ok_iff]
  simp only [readKey_eq_ok_iff, withPublic_eq_ok_iff]
  constructor
  · rintro ⟨found, hread, rfl, hpublic⟩
    exact ⟨hread, hpublic⟩
  · rintro ⟨hread, hpublic⟩
    exact ⟨seed, hread, rfl, hpublic⟩

/-- **Of all other files loading tells what is wrong**, with the private key first. -/
theorem load_eq_error_iff :
    (location.load scheme disk).outcome = .error problem ↔
      Unusable scheme location disk problem := by
  rw [outcome_load, bind_eq_error_iff]
  simp only [readKey_eq_error_iff, readKey_eq_ok_iff, withPublic_eq_error_iff]
  constructor
  · rintro ((⟨hread, rfl⟩ | hunfit) | ⟨seed, hseed, path, loc, hpath, hleads, hunfit |
      ⟨stored, hread, hne, rfl⟩⟩)
    · exact .missing hread
    · exact .unfitPrivate hunfit
    · exact .unfitPublic hseed hpath hleads hunfit
    · exact .mismatch hseed hpath hread hne
  · rintro (hread | hunfit | ⟨hseed, hpath, hleads, hunfit⟩ | ⟨hseed, hpath, hread, hne⟩)
    · exact .inl (.inl ⟨hread, rfl⟩)
    · exact .inl (.inr hunfit)
    · exact .inr ⟨_, hseed, _, _, hpath, hleads, .inl hunfit⟩
    · obtain ⟨loc, hleads, -⟩ := Disk.read_eq_ok_iff.mp hread
      exact .inr ⟨_, hseed, _, loc, hpath, hleads, .inr ⟨_, hread, hne, rfl⟩⟩

/-- **A key is missing exactly if there is nothing at the path of the private key**; a public key
never is. -/
theorem load_missing_iff : (location.load scheme disk).outcome = .error (.missing path) ↔
    path = location.privatePath ∧ disk.read path = .error .notFound := by
  rw [load_eq_error_iff]
  constructor
  · intro h
    cases h with
    | missing hread => exact ⟨rfl, hread⟩
    | unfitPrivate hunfit => cases hunfit
    | unfitPublic _ _ _ hunfit => cases hunfit
  · rintro ⟨rfl, hread⟩
    exact .missing hread

end PackageSeal.KeyLocation
