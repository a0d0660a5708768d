import PackageSeal.Proofs.Disk.Rewrites

/-!
# Two disks of one shape

What can be done on a disk can be done on another of the same shape: a file that can be written on
one can be written on the other (`Rooted.write_of_sameShape`), and then the two differ there no
longer (`Rooted.write_alike`). A walk lists its files in an order that the paths alone determine, so
walks that meet the same files list the same (`filter_eq_of_mem_iff`).
-/

namespace PackageSeal

namespace Disk

variable {disk other after : Disk} {root : Path} {loc : Location} {texts : List String}
  {content : Bytes}

/-! ## Writing on both -/

/-- Entering names leads to where a file can be put, if the last stands in a directory and leads to
nothing or to a file. -/
theorem target_descend (h : disk.Rooted root loc) {front : List String} {name : String}
    (htexts : ∀ text ∈ front ++ [name], Text.IsName text)
    (hshort : (RawText.utf8 name).bytes.length ≤ Route.maxName)
    (hdir : disk.at? (loc ++ Path.names front) = some .dir)
    (hfree : ∀ item, disk.at? (loc ++ Path.names (front ++ [name])) = some item →
      ∃ old, item = .file old) :
    disk.target (Route.ofText (root.descend (Path.names (front ++ [name]))).text) =
      .ok (loc ++ Path.names (front ++ [name])) := by
  have hne : front ++ [name] ≠ [] := List.append_ne_nil_of_right_ne_nil _ (List.cons_ne_nil _ _)
  have hroot := h.leads.text_ne_empty
  obtain ⟨entries, hget⟩ := at?_eq_dir_iff.mp hdir
  have hsplit : loc ++ Path.names (front ++ [name]) = loc ++ Path.names front ++ [.utf8 name] := by
    simp
  have hsteps : (Path.names (front ++ [name])).map Step.into =
      (Path.names front).map Step.into ++ [.into (.utf8 name)] := by
    simp
  obtain ⟨links, hlocate⟩ :=
    locate_continues h.leads (Path.continues_descend hroot htexts hne) .make
  rw [Path.slash_descend hroot htexts hne, hsteps] at hlocate
  -- The steps up to the last name end at its directory.
  have hadvance : advance disk.top .make false loc
      ((Path.names front).map Step.into ++ [.into (.utf8 name)]) =
        advance disk.top .make false (loc ++ Path.names front) [.into (.utf8 name)] :=
    (advances_names h.wellFormed hget (by simp)).advance_append (List.cons_ne_nil _ _) _ _
  rw [advance_into hget, if_neg (by simp), if_neg (Nat.not_lt.mpr hshort), ← hsplit] at hadvance
  unfold target
  rw [hlocate]
  cases hchild : disk.top.get? (loc ++ Path.names (front ++ [name])) with
  | none =>
      rw [hchild] at hadvance
      rw [follow_eq_ok_iff.mpr (.inl ⟨hadvance, rfl⟩), hsplit]
  | some node =>
      obtain ⟨old, hold⟩ := hfree node.item (by rw [at?, hchild]; rfl)
      rw [Node.item_eq_file_iff] at hold
      subst hold
      rw [hchild] at hadvance
      simp only [advance_nil hchild] at hadvance
      rw [follow_eq_ok_iff.mpr (.inl ⟨hadvance, rfl⟩)]

/-- **What can be written on a disk can be written on another of the same shape.** -/
theorem Rooted.write_of_sameShape (h : disk.Rooted root loc) (h' : other.Rooted root loc)
    (hs : SameShape disk other) (hne : texts ≠ []) (htexts : ∀ text ∈ texts, Text.IsName text)
    (hwrite : disk.write (root.descend (Path.names texts)) content = .ok after) :
    ∃ after', other.write (root.descend (Path.names texts)) content = .ok after' := by
  obtain ⟨hover, -, hstores⟩ := h.write_descend hne htexts hwrite
  obtain ⟨route, found, hroute, htarget, -, hleads, -⟩ := write_eq_ok h.wellFormed hwrite
  obtain rfl := hleads.unique hstores.leads
  obtain ⟨-, -, -, parent, last, entries, hplace, hname, hdir, -⟩ :=
    target_eq_ok h.wellFormed (fun name hm => Route.askable_of_mem hroute hm) htarget
  obtain ⟨-, rfl⟩ := text_ne_empty_of_ofPath hroute
  obtain ⟨front, name, rfl⟩ := exists_concat hne
  rw [Path.names, List.map_append, List.map_singleton, ← List.append_assoc] at hplace
  obtain ⟨rfl, rfl⟩ := List.append_singleton_inj.mp hplace
  have hparent := hs.dir_iff.mpr (at?_eq_dir_iff.mpr ⟨entries, hdir⟩)
  have hfree : ∀ item, other.at? (loc ++ Path.names (front ++ [name])) = some item →
      ∃ old, item = .file old := by
    intro item hitem
    cases item with
    | file old => exact ⟨old, rfl⟩
    | dir => exact hover.was_file _ (hs.dir_iff.mp hitem)
    | link target => exact hover.was_file _ (hs.link_iff.mp hitem)
  have htarget' := target_descend h' htexts hname.short hparent hfree
  simp only [Disk.write, hroute, htarget', Except.ok.injEq, exists_eq']

/-- **After the same write on both, two disks differ there no longer.** -/
theorem Rooted.write_alike (h : disk.Rooted root loc) (h' : other.Rooted root loc)
    {pending : Location → Prop} (hdiffers : disk.Differs pending other) (hne : texts ≠ [])
    (htexts : ∀ text ∈ texts, Text.IsName text)
    (hwrite : disk.write (root.descend (Path.names texts)) content = .ok after) :
    ∃ after', other.write (root.descend (Path.names texts)) content = .ok after' ∧
      after.Rooted root loc ∧ after'.Rooted root loc ∧
      after.Differs (fun place => pending place ∧ place ≠ loc ++ Path.names texts) after' := by
  obtain ⟨after', hwrite'⟩ := h.write_of_sameShape h' hdiffers.shape hne htexts hwrite
  obtain ⟨hover, hafter, -⟩ := h.write_descend hne htexts hwrite
  obtain ⟨hover', hafter', -⟩ := h'.write_descend hne htexts hwrite'
  refine ⟨after', hwrite', hafter, hafter',
    (hover.sameShape.symm.trans hdiffers.shape).trans hover'.sameShape, fun {place} hplace => ?_⟩
  by_cases heq : place = loc ++ Path.names texts
  · rw [heq, hover.at?_self, hover'.at?_self]
  · rw [hover.at?_of_ne heq, hover'.at?_of_ne heq, hdiffers.at?_eq fun hpending =>
      hplace ⟨hpending, heq⟩]

/-! ## Walking both -/

/-- **Walks that meet the same files of a kind list these alike.** -/
theorem filter_eq_of_mem_iff (hw : disk.WellFormed) (hw' : other.WellFormed)
    {files files' : List Path} (hfiles : disk.filesUnder root = .ok files)
    (hfiles' : other.filesUnder root = .ok files')
    {keep : Path → Bool} (hmem : ∀ path, keep path = true → (path ∈ files ↔ path ∈ files')) :
    files.filter keep = files'.filter keep := by
  obtain ⟨loc, hlisted⟩ := listed_of_filesUnder hw hfiles
  obtain ⟨loc', hlisted'⟩ := listed_of_filesUnder hw' hfiles'
  refine List.Perm.eq_of_pairwise (fun p q hp hq hpq hqp => ?_)
    ((ascending_of_filesUnder hw hfiles).filter _)
    ((ascending_of_filesUnder hw' hfiles').filter _) ?_
  · rw [List.mem_filter] at hp hq
    have hkey := List.le_antisymm (List.not_lt.mp hpq) (List.not_lt.mp hqp)
    exact hlisted.key_inj hp.1 ((hmem q hq.2).mpr hq.1) hkey
  · rw [List.perm_ext_iff_of_nodup (hlisted.nodup.filter _) (hlisted'.nodup.filter _)]
    intro path
    rw [List.mem_filter, List.mem_filter]
    exact and_congr_left (hmem path)

end Disk

end PackageSeal
