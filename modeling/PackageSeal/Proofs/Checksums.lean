import PackageSeal.Proofs.Disk.Entry
import PackageSeal.Proofs.Disk.Flat
import PackageSeal.Proofs.Frame.Copied
import PackageSeal.Proofs.Path.Children
import PackageSeal.Proofs.Verification.Package

/-!
# Checksums and the files that record them

`Sidecar.checksumOf` says what the checksum of a file is. Here is the loop that computes it:
`Hash.Running.takeIn` reads into one buffer until a read brings nothing, and takes in what each read
put at the front of the buffer.

* `takeIn_eq`: in whatever portions reads bring a content, all of it is taken in, once and in order.
* `computed_eq`: so the loop computes the checksum, or fails, as `checksumOf` says.
* `recorded_of_write`, `entryAt_of_write`: once a sidecar is written, it records the checksum of the
  file, and the file is still what it was.

`computed_recorded` puts them together with the texts that are read as checksums.
-/

namespace PackageSeal

/-! ## Reading into a buffer -/

namespace Reading

/-- What reading comes to: all octets, or the fault that ends them. -/
def outcome (reading : Reading) : Except IoError Bytes :=
  match reading.fault with
  | some cause => .error cause
  | none => .ok reading.octets

/-- One read into a buffer: how many octets it brings, and the buffer with these at its front and
behind them what it held before. -/
def fill (buffer : Bytes) (reading : Reading) : Except IoError (Nat × Bytes × Reading) :=
  match reading.next buffer.length with
  | .error cause => .error cause
  | .ok (block, rest) => .ok (block.length, block ++ buffer.drop block.length, rest)

variable {reading rest : Reading} {buffer filled : Bytes} {count : Nat}

/-- A read leaves as many octets fewer as it brings. -/
theorem length_octets_fill (h : reading.fill buffer = .ok (count, filled, rest)) :
    reading.octets.length = count + rest.octets.length := by
  unfold fill at h
  cases hnext : reading.next buffer.length with
  | error cause => simp [hnext] at h
  | ok result =>
      obtain ⟨block, left⟩ := result
      simp only [hnext, Except.ok.injEq, Prod.mk.injEq] at h
      obtain ⟨rfl, -, rfl⟩ := h
      rw [octets_next hnext, List.length_append]

end Reading

/-- The first octets of a buffer; none if it does not have so many. -/
def bufferFront (buffer : Bytes) (count : Nat) : Bytes :=
  if count ≤ buffer.length then buffer.take count else []

theorem bufferFront_append (block rest : Bytes) :
    bufferFront (block ++ rest) block.length = block := by
  rw [bufferFront, if_pos (by simp), List.take_left]

namespace Hash.Running

variable {H : BlockHash} {running : Running H} {buffer filled : Bytes} {reading rest : Reading}

/-- Take in what reads into the buffer bring, until one brings nothing. -/
def takeIn (running : Running H) (buffer : Bytes) (reading : Reading) :
    Except IoError (Running H) :=
  match _ : reading.fill buffer with
  | .error cause => .error cause
  | .ok (count, filled, rest) =>
    if count = 0 then .ok running
    else takeIn (running.absorb (bufferFront filled count)) filled rest
termination_by reading.octets.length
decreasing_by
  have hlength := Reading.length_octets_fill ‹_›
  omega

theorem takeIn_of_error {cause : IoError} (h : reading.fill buffer = .error cause) :
    running.takeIn buffer reading = .error cause := by
  rw [takeIn]
  split
  · next hfill => rw [h, Except.error.injEq] at hfill; rw [hfill]
  · next hfill => rw [h] at hfill; cases hfill

theorem takeIn_of_fill {count : Nat} (h : reading.fill buffer = .ok (count, filled, rest)) :
    running.takeIn buffer reading =
      if count = 0 then .ok running
      else takeIn (running.absorb (bufferFront filled count)) filled rest := by
  rw [takeIn]
  split
  · next hfill => rw [h] at hfill; cases hfill
  · next hfill =>
    rw [h, Except.ok.injEq, Prod.mk.injEq, Prod.mk.injEq] at hfill
    obtain ⟨rfl, rfl, rfl⟩ := hfill
    rfl

/-- **All of a content is taken in**, whatever portions the reads bring and whatever the buffer
held: what an earlier read left in it stands behind what is taken. -/
theorem takeIn_eq (hbuffer : buffer ≠ []) (hchunks : ∀ chunk ∈ reading.chunks, chunk ≠ []) :
    running.takeIn buffer reading = reading.outcome.map running.absorb := by
  induction hsize : reading.octets.length using Nat.strongRecOn
    generalizing running buffer reading with
  | ind size ih =>
      subst hsize
      by_cases hmore : reading.chunks = []
      · have hoctets : reading.octets = [] := by rw [Reading.octets, hmore]; rfl
        cases hfault : reading.fault with
        | some cause =>
            have hfill : reading.fill buffer = .error cause := by
              simp [Reading.fill, Reading.next, hmore, hfault]
            rw [takeIn_of_error hfill, Reading.outcome, hfault]
            rfl
        | none =>
            have hfill : reading.fill buffer = .ok (0, buffer, reading) := by
              simp [Reading.fill, Reading.next, hmore, hfault]
            rw [takeIn_of_fill hfill, if_pos rfl, Reading.outcome, hfault, hoctets]
            simp [Except.map]
      · obtain ⟨block, rest, hnext, hblock, -, hrest, hfault⟩ :=
          Reading.next_of_chunks (List.length_pos_iff.mpr hbuffer) hchunks hmore
        have hfill : reading.fill buffer =
            .ok (block.length, block ++ buffer.drop block.length, rest) := by
          simp only [Reading.fill, hnext]
        have hoctets := Reading.octets_next hnext
        have hlength := List.length_pos_iff.mpr hblock
        have hless : rest.octets.length < reading.octets.length := by
          rw [hoctets, List.length_append]; omega
        have hfilled : block ++ buffer.drop block.length ≠ [] :=
          List.append_ne_nil_of_left_ne_nil hblock _
        rw [takeIn_of_fill hfill, if_neg (by omega), bufferFront_append,
          ih _ hless hfilled hrest rfl, Reading.outcome, Reading.outcome, hfault]
        cases reading.fault with
        | some cause => rfl
        | none =>
            simp only [Except.map, absorb_absorb]
            rw [hoctets]

end Hash.Running

/-! ## The checksum of a file -/

namespace Sidecar

/-- How open files are read: what a node holds comes in portions of any size but none, and then ends
as reading the node ends. -/
structure Delivers (deliver : Node → Reading) : Prop where
  chunk_ne_nil : ∀ node, ∀ chunk ∈ (deliver node).chunks, chunk ≠ []
  outcome_eq : ∀ node, (deliver node).outcome = Disk.contentOf node

/-- The text of the checksum of a file, computed with a buffer of one block. -/
def computed (deliver : Node → Reading) (disk : Disk) (path : Path) : Except Failure String :=
  match disk.find path with
  | .error cause => .error (.access .opening path cause)
  | .ok (_, node) =>
    match (Hash.Running.start Hash.sha256).takeIn (List.replicate blockSize 0) (deliver node) with
    | .error cause => .error (.access .reading path cause)
    | .ok running => .ok (Text.hex running.finish)

variable {deliver : Node → Reading} {disk after : Disk} {path result root : Path} {loc : Location}
  {content : Bytes}

/-- **The loop computes the checksum**, and fails where there is none. -/
theorem computed_eq (h : Delivers deliver) (disk : Disk) (path : Path) :
    computed deliver disk path = (checksumOf disk path).map Checksum.text := by
  unfold computed checksumOf
  cases disk.find path with
  | error cause => rfl
  | ok found =>
      obtain ⟨loc, node⟩ := found
      have hloop : (Hash.Running.start Hash.sha256).takeIn (List.replicate blockSize 0)
          (deliver node) = _ := Hash.Running.takeIn_eq (by decide) (h.chunk_ne_nil node)
      rw [h.outcome_eq] at hloop
      cases hcontent : Disk.contentOf node with
      | error cause =>
          rw [hcontent] at hloop
          simp only [hloop, hcontent, Except.map]
      | ok content =>
          rw [hcontent] at hloop
          simp only [hloop, hcontent, Except.map, Hash.Running.finish_absorb_start,
            Checksum.ofParts_eq, flatten_pieces (by decide : 0 < blockSize)]
          rfl

/-! ## The file that records it -/

/-- What is written is what is recorded, whatever the sidecar held. -/
theorem recorded_of_write (hw : disk.WellFormed) (h : (write path).Ends disk result after) :
    ∃ content, disk.read path = .ok content ∧
      recorded after path = .ok (Checksum.ofContent content) := by
  obtain ⟨-, content, hread, hwrite⟩ := ends_write.mp h
  exact ⟨content, hread, recorded_eq_ok_iff.mpr (Disk.read_of_write hw hwrite)⟩

/-- The sidecar of a name at a root is a name at the root. -/
theorem pathFor_join (root : Path) {name : String} (hname : Text.IsName name) :
    pathFor (root.join ⟨name⟩) = root.join ⟨name ++ suffix⟩ := by
  by_cases hroot : root.text = ""
  · rw [Path.join_of_empty hroot, Path.join_of_empty hroot]
    rfl
  · exact Path.extend_join hroot hname suffix

/-- **A regular file stays what it was** when its sidecar is written, if no link stands at the path
of the sidecar: both are entries of one directory, under different names. -/
theorem entryAt_of_write (hw : disk.WellFormed)
    (hfile : disk.entryAt path = .ok (loc, .file content))
    (hlink : ∀ place target, disk.entryAt (pathFor path) ≠ .ok (place, .link target))
    (h : (write path).Ends disk result after) : after.entryAt path = .ok (loc, .file content) := by
  obtain ⟨-, held, -, hwrite⟩ := ends_write.mp h
  obtain ⟨route, -, hroute, -⟩ := Disk.entryAt_eq_ok_iff.mp hfile
  obtain ⟨beside, -, hbeside, -⟩ := Disk.write_eq_ok hw hwrite
  obtain ⟨root, name, start, rfl, hname, hbase, rfl⟩ := Disk.exists_base_of_entryAt hw hfile
  have hmarked := isName_append_suffix hname.no_separator
  rw [pathFor_join root hname] at hwrite hlink hbeside
  obtain ⟨place, hover, -, hw', hplace⟩ :=
    hbase.write hw (Path.continues_name hmarked) (by simp) hwrite
  have hfree : ¬ disk.LinkOn start [.utf8 (name ++ suffix)] := by
    intro hon
    obtain ⟨target, hat⟩ := @Disk.link_of_linkOn disk start [] _ (by simpa using hbase.dir) hon
    exact hlink _ target ((hbase.entryAt_eq_ok_iff hw hmarked hbeside).mpr
      ⟨rfl, Disk.at?_eq_link_iff.mp hat⟩)
  obtain rfl := hplace.resolve_right hfree
  have hother : start ++ [.utf8 name] ≠ start ++ Step.names [.into (.utf8 (name ++ suffix))] := by
    intro heq
    have hsame := RawText.utf8.inj (List.append_singleton_inj.mp heq).2
    have hlength := congrArg (fun text => text.toList.length) hsame
    simp [suffix] at hlength
  have hheld := ((hbase.entryAt_eq_ok_iff hw hname hroute).mp hfile).2
  refine ((hbase.of_sameShape hover.sameShape).entryAt_eq_ok_iff hw' hname hroute).mpr ⟨rfl, ?_⟩
  rw [← Disk.at?_eq_file_iff, hover.at?_of_ne hother]
  exact Disk.at?_eq_file_iff.mpr hheld

end Sidecar

namespace Checksum

/-- **The texts that are read as checksums** are those of sixty-four lower-case digits. -/
theorem exists_ofText_iff {text : String} : (∃ found, ofText text = .ok found) ↔
    text.toList.length = 64 ∧ ∀ c ∈ text.toList, IsLowerHex c := by
  simp only [ofText_eq_ok_iff]
  constructor
  · rintro ⟨found, rfl⟩
    exact ⟨found.length_eq, found.isLowerHex⟩
  · rintro ⟨hlength, hlower⟩
    exact ⟨⟨text, hlength, hlower⟩, rfl⟩

end Checksum

namespace Sidecar

variable {deliver : Node → Reading}

/-- **Checksums and sidecars agree.** Reads of any sizes give the checksum of a file, and the
failure where it has none; for a content it is the SHA-256 of the whole in hexadecimal, and read as
the checksum that it is. The texts that are read as checksums are exactly those of sixty-four
lower-case digits, and each is the text of what it is read as. Once the sidecar of a regular file is
written, whatever was there but a link, it records the checksum that is computed of the file, before
and after, and the file stands where it stood and holds what it held. -/
theorem computed_recorded (h : Delivers deliver) (disk : Disk) (path : Path) (text : String) :
    computed deliver disk path = (checksumOf disk path).map Checksum.text ∧
    (∀ content, disk.read path = .ok content →
      computed deliver disk path = .ok (Text.hex (Hash.sha256.hash content)) ∧
      ∃ checksum, Checksum.ofText (Text.hex (Hash.sha256.hash content)) = .ok checksum ∧
        checksumOf disk path = .ok checksum) ∧
    ((∃ found, Checksum.ofText text = .ok found) ↔
      text.toList.length = 64 ∧ ∀ c ∈ text.toList, IsLowerHex c) ∧
    (∀ found, Checksum.ofText text = .ok found → found.text = text) ∧
    ∀ loc content result after, disk.WellFormed →
      disk.entryAt path = .ok (loc, .file content) →
      (∀ place target, disk.entryAt (pathFor path) ≠ .ok (place, .link target)) →
      (write path).Ends disk result after →
      after.entryAt path = .ok (loc, .file content) ∧
      ∃ checksum, recorded after path = .ok checksum ∧
        computed deliver disk path = .ok checksum.text ∧
        computed deliver after path = .ok checksum.text := by
  have hcomputed : ∀ {disk : Disk} {content}, disk.read path = .ok content →
      computed deliver disk path = .ok (Checksum.ofContent content).text := by
    intro disk content hread
    rw [computed_eq h, checksumOf_eq_ok_iff.mpr ⟨content, hread, rfl⟩]
    rfl
  refine ⟨computed_eq h disk path, fun content hread =>
    ⟨hcomputed hread, Checksum.ofContent content, Checksum.ofText_eq_ok_iff.mpr rfl,
      checksumOf_eq_ok_iff.mpr ⟨content, hread, rfl⟩⟩,
    Checksum.exists_ofText_iff, fun found hfound => Checksum.ofText_eq_ok_iff.mp hfound, ?_⟩
  intro loc content result after hw hfile hlink hends
  have hkept := entryAt_of_write hw hfile hlink hends
  obtain ⟨held, hread, hrecorded⟩ := recorded_of_write hw hends
  have hheld : held = content :=
    Except.ok.inj (hread.symm.trans (Disk.read_of_entryAt hfile))
  exact ⟨hkept, _, hrecorded, hcomputed hread, hheld ▸ hcomputed (Disk.read_of_entryAt hkept)⟩

/-- Reads that bring one octet each. -/
def octetwise (node : Node) : Reading :=
  match Disk.contentOf node with
  | .ok content => { chunks := content.map fun b => [b] }
  | .error cause => ⟨[], some cause⟩

theorem delivers_octetwise : Delivers octetwise where
  chunk_ne_nil node chunk hchunk := by
    unfold octetwise at hchunk
    cases hnode : Disk.contentOf node with
    | error cause => simp [hnode] at hchunk
    | ok content =>
        simp only [hnode, List.mem_map] at hchunk
        obtain ⟨b, -, rfl⟩ := hchunk
        exact List.cons_ne_nil b []
  outcome_eq node := by
    unfold octetwise
    cases Disk.contentOf node with
    | error cause => rfl
    | ok content => simp [Reading.outcome, Reading.octets, ← List.flatMap_def]

/-- A file, and beside it a sidecar that is no checksum and longer than one. -/
def staleDisk : Disk :=
  .flat [("a", [1, 2, 3]), ("a.sha256", List.replicate 100 65)]

theorem staleDisk_wellFormed : staleDisk.WellFormed :=
  Disk.flat_wellFormed ["a", "a.sha256"] rfl (by decide) (by decide)

/-- A stale sidecar is written over, and the file is read octet by octet. -/
theorem computed_recorded_stale : Delivers octetwise ∧ staleDisk.WellFormed ∧
    staleDisk.entryAt ⟨"a"⟩ = .ok ([.utf8 "a"], .file [1, 2, 3]) ∧
    (∀ place target, staleDisk.entryAt ⟨"a.sha256"⟩ ≠ .ok (place, .link target)) ∧
    ∃ after, (write ⟨"a"⟩).Ends staleDisk ⟨"a.sha256"⟩ after ∧
      after.entryAt ⟨"a"⟩ = .ok ([.utf8 "a"], .file [1, 2, 3]) ∧
      ∃ checksum, recorded after ⟨"a"⟩ = .ok checksum ∧
        computed octetwise after ⟨"a"⟩ = .ok checksum.text := by
  have hfile : staleDisk.entryAt ⟨"a"⟩ = .ok ([.utf8 "a"], .file [1, 2, 3]) := rfl
  have hsidecar : staleDisk.entryAt ⟨"a.sha256"⟩ =
      .ok ([.utf8 "a.sha256"], .file (List.replicate 100 65)) := rfl
  have hlink : ∀ place target, staleDisk.entryAt ⟨"a.sha256"⟩ ≠ .ok (place, .link target) := by
    intro place target heq
    rw [hsidecar] at heq
    cases heq
  have hends := ends_write.mpr ⟨rfl, [1, 2, 3], (rfl : staleDisk.read ⟨"a"⟩ = _), rfl⟩
  obtain ⟨-, -, -, -, hwritten⟩ := computed_recorded delivers_octetwise staleDisk ⟨"a"⟩ ""
  obtain ⟨hkept, checksum, hrecorded, -, hafter⟩ :=
    hwritten _ _ _ _ staleDisk_wellFormed hfile hlink hends
  exact ⟨delivers_octetwise, staleDisk_wellFormed, hfile, hlink, _, hends, hkept,
    checksum, hrecorded, hafter⟩

end Sidecar

end PackageSeal
