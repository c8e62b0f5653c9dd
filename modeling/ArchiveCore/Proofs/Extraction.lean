import ArchiveCore.Proofs.Handles
import ArchiveCore.Proofs.Routes

/-!
# Every route to a member brings its bytes

Under readers that agree on what a zip member is, the window, the seek index, the fallback
of the seek index and the spill all give a handle over the bytes its reader yields.
-/

namespace ArchiveCore

open Framework

/-- The readers of a zip agree: a stored member that decodes is the window its listing
names, and a deflated file is opened by name as a faithful reader of what it decodes to. -/
structure FaithfulZip (B : Backends) (data : Bytes) : Prop where
  stored : ∀ z index zf b, B.zipArchive data = .ok z → z.byIndex index = .ok zf →
    zf.compression = .stored → zf.contents = Feed.eof b →
    zf.dataStart.toNat + zf.compressedSize.toNat ≤ data.length ∧
      b = (data.drop zf.dataStart.toNat).take zf.compressedSize.toNat
  opens : ∀ z index zf b, B.zipArchive data = .ok z → z.SoleFile index zf →
    zf.compression = .deflated ∨ zf.compression = .deflate64 → zf.contents = Feed.eof b →
    ∃ entry, B.openEntry data zf.name = .ok entry ∧ entry.Faithful b

theorem zipReaders_faithful {image : Bytes} {members : List ZipFile}
    (hfiles : ∀ zf ∈ members, zf.isDir = false ∧ zf.contents.items.length ≤ wordMax)
    (hstored : ∀ zf ∈ members, zf.compression = .stored →
      zf.dataStart.toNat + zf.compressedSize.toNat ≤ image.length ∧
        zf.contents.items = (image.drop zf.dataStart.toNat).take zf.compressedSize.toNat) :
    FaithfulZip (zipReaders image members) image where
  stored := by
    intro z index zf b hz hzf hmethod hcontents
    obtain ⟨hwindow, hitems⟩ :=
      hstored zf (List.mem_of_getElem? (zipReaders_byIndex hz hzf)) hmethod
    rw [hcontents] at hitems
    exact ⟨hwindow, hitems⟩
  opens := by
    intro z index zf b hz hsole _ hcontents
    have hget := zipReaders_byIndex hz hsole.found
    have hmem := List.mem_of_getElem? hget
    have hlen := (hfiles zf hmem).2
    rw [hcontents] at hlen
    refine ⟨.over b, ?_, StoredZipEntry.over_faithful hlen⟩
    obtain ⟨other, hother⟩ : ∃ other, members.find? (fun m => m.name == zf.name) = some other :=
      Option.isSome_iff_exists.mp (List.find?_isSome.mpr ⟨zf, hmem, by simp⟩)
    obtain rfl := Except.ok.inj ((if_pos rfl).symm.trans hz)
    -- the first member of that name is the sole one
    obtain ⟨j, hj⟩ := List.mem_iff_getElem?.mp (List.mem_of_find?_eq_some hother)
    have hfile := (hfiles other (List.mem_of_getElem? hj)).1
    obtain rfl := hsole.sole j other (List.getElem?_eq_some_iff.mp hj).1 (by simp [zipOf, hj]) hfile
      (by simpa using List.find?_some hother)
    obtain rfl := Option.some.inj (hget.symm.trans hj)
    simp [zipReaders, hother, hcontents]

theorem maxInflated_le_fileMax : maxInflated ≤ fileMax := by decide

theorem holds_holding {b : Bytes} (h : b.length ≤ fileMax) :
    (PeeledSource.temp (.holding b)).Holds b :=
  .inr (.file (t := .holding b) rfl h (Nat.zero_le _))

theorem WindowRoute.holds {data : Bytes} {limits : Limits} {access : Access} {offset len : Nat}
    (h : WindowRoute data limits access offset len) :
    (PeeledSource.inPlace ⟨data, offset, len, 0⟩).Holds ((data.drop offset).take len) :=
  .inl (.window (w := ⟨data, offset, len, 0⟩) ⟨h.fits, h.word, Nat.zero_le _⟩)

theorem StoredZipEntry.Faithful.holds {entry : StoredZipEntry} {b : Bytes} (h : entry.Faithful b)
    (archive : Bytes) : (PeeledSource.zran ⟨entry, entry.len.toNat, 0, archive⟩).Holds b :=
  .inl (.entry (z := ⟨entry, entry.len.toNat, 0, archive⟩) h h.len (Nat.zero_le _))

theorem holding_drainsTo (b : Bytes) :
    PeeledSource.readSeek.DrainsTo (.temp (.holding b)) b := by
  let view (s : PeeledSource) (c : Cursor UInt8) : Prop :=
    ∃ len, s = .temp ⟨⟨c.items, c.pos⟩, len⟩
  have hview : PeeledSource.readSeek.Refines view fun _ _ => False := by
    refine ⟨?_, fun _ ha => ha.elim, fun _ ha => ha.elim⟩
    intro s c want h
    obtain ⟨len, rfl⟩ := h
    exact ⟨want, _, rfl, le_rfl, id, len, rfl⟩
  exact hview.drainsTo (c := Cursor.start b) ⟨b.length, rfl⟩

section

variable {B : Backends} {data b : Bytes} {format : Format} {index : Nat} {nm : String}
  {limits : Limits} {archive : Archive}

theorem spilled_holds {access : Access} (htemp : B.temp.Healthy)
    (hcap : limits.maxTotalInflated < wordMax)
    (hopen : Archive.openWithFormat B format data = .ok (some archive))
    (hfeed : archive.memberFeed B index = .ok (Feed.eof b))
    (hb : b.length ≤ limits.maxTotalInflated) (hmax : b.length ≤ fileMax)
    (hplanned : access = .spillToTemp ∨ access = .zran ∧
      (format = .zip → ∃ size, memberUncompressedSize B .zip data index = .ok size ∧
        limits.maxIndexBytes < estimateZranIndexBytes size)) :
    ∃ source, executeMemberAccess B format data index nm access limits = .ok source ∧
      source.Holds b := by
  have hroute : SpillRoute B format data limits index access b :=
    ⟨hplanned, ⟨archive, _, hopen, hfeed, Archive.streamed_of_lt hcap _⟩, hb, htemp.takes _⟩
  exact ⟨_, hroute.opened, holds_holding hmax⟩

theorem window_holds {zf : ZipFile} (hdata : data.length ≤ wordMax)
    (hwindow : zf.dataStart.toNat + zf.compressedSize.toNat ≤ data.length)
    (hb : b = (data.drop zf.dataStart.toNat).take zf.compressedSize.toNat)
    (hcap : b.length ≤ limits.maxTotalInflated) :
    ∃ source, executeMemberAccess B format data index nm
      (.inPlace zf.dataStart.toNat zf.compressedSize.toNat) limits = .ok source ∧ source.Holds b := by
  have hlen : b.length = zf.compressedSize.toNat := by
    rw [hb, List.length_take, List.length_drop]
    omega
  have hroute : WindowRoute data limits (.inPlace zf.dataStart.toNat zf.compressedSize.toNat)
      zf.dataStart.toNat zf.compressedSize.toNat :=
    ⟨rfl, hlen ▸ hcap, hwindow.trans hdata, hwindow⟩
  exact ⟨_, hroute.opened, hb ▸ hroute.holds⟩

theorem indexed_holds {z : ZipArchive} {zf : ZipFile} {size : Nat} (hfaithful : FaithfulZip B data)
    (htemp : B.temp.Healthy) (hz : B.zipArchive data = .ok z) (hsole : z.SoleFile index zf)
    (hdeflated : zf.compression = .deflated ∨ zf.compression = .deflate64)
    (hfeed : zf.contents = Feed.eof b)
    (hsize : memberUncompressedSize B .zip data index = .ok size)
    (hgate : estimateZranIndexBytes size ≤ limits.maxIndexBytes) :
    ∃ source, executeMemberAccess B .zip data index zf.name .zran limits = .ok source ∧
      source.Holds b := by
  obtain ⟨entry, hentry, hreads⟩ := hfaithful.opens z index zf b hz hsole hdeflated hfeed
  have hroute : IndexRoute B .zip data limits index zf.name .zran entry :=
    ⟨rfl, rfl, ⟨size, hsize, hgate⟩, htemp.create, (htemp.takes data.length).room, htemp.flush, hentry⟩
  exact ⟨_, hroute.opened, hreads.holds data⟩

/-- The planned route to a member gives a handle over its bytes, whichever route it is. -/
theorem executeMemberAccess_holds {access : Access} (hfaithful : FaithfulZip B data)
    (htemp : B.temp.Healthy) (hdata : data.length ≤ wordMax)
    (hcap : limits.maxTotalInflated < wordMax)
    (hopen : Archive.openWithFormat B format data = .ok (some archive))
    (hsole : ∀ z, archive.backend = .zip z → ∃ zf, z.SoleFile index zf ∧ zf.name = nm)
    (haccess : archive.memberAccess index = .ok access)
    (hfeed : archive.memberFeed B index = .ok (Feed.eof b))
    (hb : b.length ≤ limits.maxTotalInflated) (hmax : b.length ≤ fileMax) :
    ∃ source, executeMemberAccess B format data index nm access limits = .ok source ∧
      source.Holds b := by
  by_cases hzip : ∃ z, archive.backend = .zip z
  · obtain ⟨z, hback⟩ := hzip
    obtain ⟨rfl, hz, hentries⟩ := Archive.openWithFormat_zip hopen hback
    obtain ⟨zf, hzsole, rfl⟩ := hsole z hback
    obtain ⟨hindex, zf', hzf', rfl⟩ := (Archive.memberAccess_zip hback).mp haccess
    obtain rfl := Except.ok.inj (hzsole.found.symm.trans hzf')
    obtain ⟨-, zf', hzf', hcontents⟩ := (Archive.memberFeed_zip hback).mp hfeed
    obtain rfl := Except.ok.inj (hzsole.found.symm.trans hzf')
    have hzran : zf.compression = .deflated ∨ zf.compression = .deflate64 →
        ∃ source, executeMemberAccess B .zip data index zf.name .zran limits = .ok source ∧
          source.Holds b := by
      intro hdeflated
      obtain ⟨zf', hzf', hentry⟩ := Archive.byIndex_of_lt hentries hindex
      have hsize := memberUncompressedSize_eq_ok.mpr ⟨archive, _, hopen, hentry, rfl⟩
      by_cases hgate : limits.maxIndexBytes < estimateZranIndexBytes zf'.size.toNat
      · exact spilled_holds htemp hcap hopen hfeed hb hmax (.inr ⟨rfl, fun _ => ⟨_, hsize, hgate⟩⟩)
      · exact indexed_holds hfaithful htemp hz hzsole hdeflated hcontents hsize (Nat.le_of_not_lt hgate)
    cases hmethod : zf.compression with
    | stored =>
      obtain ⟨hwindow, hshown⟩ := hfaithful.stored z index zf b hz hzsole.found hmethod hcontents
      exact window_holds hdata hwindow hshown hb
    | deflated => exact hzran (.inl hmethod)
    | deflate64 => exact hzran (.inr hmethod)
    | other code => exact spilled_holds htemp hcap hopen hfeed hb hmax (.inl rfl)
  · obtain ⟨-, rfl⟩ :=
      (Archive.memberAccess_of_not_zip fun z hz => hzip ⟨z, hz⟩).mp haccess
    exact spilled_holds htemp hcap hopen hfeed hb hmax (.inl rfl)

end

end ArchiveCore
