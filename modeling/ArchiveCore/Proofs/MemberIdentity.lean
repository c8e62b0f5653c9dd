import ArchiveCore.Proofs.Extraction

/-!
# Which member an extraction brings

A tar or zip member is read by position. A 7z member, and a zip member behind a seek index,
is asked for by name: what comes is the member the name gets, and nothing comes where that
one cannot be read.
-/

namespace ArchiveCore

open Framework

/-- What an archive records at each position: the content of the entry and whether it decodes
to that. Each name gets one position. -/
structure Recorded where
  payload : Nat → Bytes
  intact : Nat → Prop
  pick : String → Nat

namespace Recorded

/-- The entry decodes to `b`. -/
def Yields (r : Recorded) (index : Nat) (b : Bytes) : Prop := r.intact index ∧ b = r.payload index

/-- The entry decodes and fits in memory. -/
def Readable (r : Recorded) (index : Nat) : Prop :=
  r.intact index ∧ (r.payload index).length ≤ maxInflated

end Recorded

/-- What the back ends of an opened archive are relied on for: tar and zip are positional, a
stored member is its window, and a name is given one entry that bears it. -/
structure Positional (B : Backends) (data : Bytes) (a : Archive) (r : Recorded) : Prop where
  tar : ∀ compressed outer items index entry, a.backend = .tar compressed outer →
    B.tarEntries (tarStream B compressed outer) = .ok items → items[index]? = some (.ok entry) →
    ∀ b, entry.contents = Feed.eof b ↔ r.Yields index b
  zip : ∀ z index zf, a.backend = .zip z → z.byIndex index = .ok zf →
    ∀ b, zf.contents = Feed.eof b ↔ r.Yields index b
  window : ∀ z index zf, a.backend = .zip z → z.byIndex index = .ok zf → zf.compression = .stored →
    (data.drop zf.dataStart.toNat).take zf.compressedSize.toNat = r.payload index ∧
      (r.intact index → zf.dataStart.toNat + zf.compressedSize.toNat ≤ data.length)
  opens : ∀ z nm entry, a.backend = .zip z → B.openEntry data nm = .ok entry →
    ∃ zf, z.byIndex (r.pick nm) = .ok zf ∧ zf.name = nm ∧ entry.Faithful (r.payload (r.pick nm))
  openable : ∀ z index zf, a.backend = .zip z → z.byIndex index = .ok zf →
    zf.compression = .deflated ∨ zf.compression = .deflate64 → r.intact index →
    r.pick zf.name = index → ∃ entry, B.openEntry data zf.name = .ok entry
  named : ∀ (reader : SevenZReader) (index : Nat) (f : SevenZFile),
    a.backend = .sevenZip reader → reader.files[index]? = some f →
    (∃ f' : SevenZFile, reader.files[r.pick f.name]? = some f' ∧ f'.name = f.name) ∧
      ∀ b, reader.readFile f.name = .ok b ↔ r.Yields (r.pick f.name) b
  declared : ∀ (reader : SevenZReader) (index : Nat) (f : SevenZFile),
    a.backend = .sevenZip reader → reader.files[index]? = some f →
    r.intact index → f.size.toNat = (r.payload index).length

/-- A payload of `n` bytes is within the cap; a 7z member is in memory on the way. -/
def Archive.Fits (a : Archive) (cap n : Nat) : Prop :=
  n ≤ cap ∧ ∀ reader, a.backend = .sevenZip reader → n ≤ maxInflated

/-- Every extraction of the entry at `index` that succeeds brings what it records, and where
that decodes and is within the caps every one succeeds. -/
structure DeliversOwn (B : Backends) (format : Format) (data : Bytes) (a : Archive)
    (limits : Limits) (cap : Nat) (r : Recorded) (index : Nat) : Prop where
  read_own : ∀ b, a.read B index = .ok b → r.Yields index b
  read : r.Readable index → a.read B index = .ok (r.payload index)
  stream_own : ∀ out out' n, a.streamMember B index out cap = (out', .ok n) →
    r.intact index ∧ out'.written = out.written ++ r.payload index
  stream : r.intact index → a.Fits cap (r.payload index).length →
    ∀ out : ByteSink, out.hasRoom (r.payload index).length →
      ∃ out' n, a.streamMember B index out cap = (out', .ok n)
  handle_own : ∀ entry access source, a.entries[index]? = some entry →
    a.memberAccess index = .ok access →
    executeMemberAccess B format data index entry.name access limits = .ok source →
    PeeledSource.readSeek.DrainsTo source (r.payload index)
  handle : r.intact index → a.Fits limits.maxTotalInflated (r.payload index).length →
    B.temp.Healthy → ∀ entry access, a.entries[index]? = some entry →
      a.memberAccess index = .ok access →
      ∃ source, executeMemberAccess B format data index entry.name access limits = .ok source

/-- The inputs on which an entry is not what comes: its name is given another payload, or one
that cannot be had, or a copy runs under the largest cap. -/
inductive Misdelivers (B : Backends) (format : Format) (data : Bytes) (a : Archive)
    (limits : Limits) (cap : Nat) (r : Recorded) (index : Nat) : Prop
  | confused {reader : SevenZReader} {f : SevenZFile} (hb : a.backend = .sevenZip reader)
      (hf : reader.files[index]? = some f) (hsize : f.size.toNat ≤ maxInflated)
      (hpicked : r.Readable (r.pick f.name))
      (hother : ¬ r.Yields index (r.payload (r.pick f.name)))
  | hidden {reader : SevenZReader} {f : SevenZFile} (hb : a.backend = .sevenZip reader)
      (hf : reader.files[index]? = some f) (hown : r.Readable index)
      (hpicked : ¬ r.Readable (r.pick f.name))
  | indexed {entry : ArchiveEntry} {access : Access} {opened : StoredZipEntry}
      (hget : a.entries[index]? = some entry) (haccess : a.memberAccess index = .ok access)
      (hroute : IndexRoute B format data limits index entry.name access opened)
      (hother : r.payload (r.pick entry.name) ≠ r.payload index)
  | refused {entry : ArchiveEntry} {e : String} (hget : a.entries[index]? = some entry)
      (haccess : a.memberAccess index = .ok .zran)
      (hgate : estimateZranIndexBytes entry.size.toNat ≤ limits.maxIndexBytes)
      (htemp : B.temp.Healthy) (hown : r.intact index)
      (hfits : (r.payload index).length ≤ limits.maxTotalInflated)
      (hother : r.pick entry.name ≠ index) (hopen : B.openEntry data entry.name = .error e)
  | streamed (hb : ∀ reader, a.backend ≠ .sevenZip reader) (hcap : cap = wordMax)
      (hlost : ¬ r.Yields index [])
  | spilled {access : Access} (hb : ∀ reader, a.backend ≠ .sevenZip reader)
      (hcap : limits.maxTotalInflated = wordMax) (haccess : a.memberAccess index = .ok access)
      (hroute : SpillRoute B format data limits index access []) (hsome : r.payload index ≠ [])

/-- The name of a 7z entry gets what the entry itself yields. -/
def Archive.NamesOwn (a : Archive) (r : Recorded) (index : Nat) : Prop :=
  ∀ (reader : SevenZReader) f, a.backend = .sevenZip reader → reader.files[index]? = some f →
    (f.size.toNat ≤ maxInflated → r.Readable (r.pick f.name) →
      r.Yields index (r.payload (r.pick f.name))) ∧
    (r.Readable index → r.Readable (r.pick f.name))

theorem nthTarEntry_eq_ok {B : Backends} {compressed : Bytes} {outer : Format} {index : Nat}
    {entry : TarEntry} :
    nthTarEntry B compressed outer index = .ok entry ↔
      ∃ items, B.tarEntries (tarStream B compressed outer) = .ok items ∧
        items[index]? = some (.ok entry) := by
  simp only [nthTarEntry, bind_eq_ok, mapError_eq_ok]
  apply exists_congr
  intro items
  apply and_congr_right
  intro hitems
  cases items[index]? with
  | none => simp
  | some item => simp

theorem exists_memberFeed {B : Backends} {format : Format} {data : Bytes} {a : Archive}
    {index : Nat} (hopen : Archive.openWithFormat B format data = .ok (some a))
    (hb : ∀ reader, a.backend ≠ .sevenZip reader) (hindex : index < a.entries.length) :
    ∃ feed, a.memberFeed B index = .ok feed := by
  cases hback : a.backend with
  | sevenZip reader => exact absurd hback (hb reader)
  | zip z =>
    obtain ⟨zf, hzf, -⟩ := Archive.exists_zipFile hopen hback hindex
    exact ⟨_, (Archive.memberFeed_zip hback).mpr ⟨hindex, zf, hzf, rfl⟩⟩
  | tar compressed outer =>
    obtain ⟨items, hitems, hlisted⟩ := Archive.tarItems_of_open hopen hback
    obtain ⟨item, hget, hlisting⟩ :=
      getElem?_of_mapM_eq_ok hlisted index (List.getElem?_eq_getElem hindex)
    cases item with
    | error e => simp [tarListing, Except.mapError, bind, Except.bind] at hlisting
    | ok entry =>
      have hnth := nthTarEntry_eq_ok.mpr ⟨items, hitems, hget⟩
      rw [Archive.memberFeed, List.getElem?_eq_getElem hindex, hback]
      exact ⟨_, map_eq_ok.mpr ⟨entry, hnth, rfl⟩⟩

section

variable {B : Backends} {format : Format} {data : Bytes} {a : Archive} {limits : Limits}
  {cap index : Nat} {r : Recorded}

theorem Recorded.Yields.eq {b b' : Bytes} (h : r.Yields index b) (h' : r.Yields index b') : b = b' :=
  h.2.trans h'.2.symm

theorem Positional.memberFeed (h : Positional B data a r)
    (hb : ∀ reader, a.backend ≠ .sevenZip reader) {feed : ByteFeed}
    (hfeed : a.memberFeed B index = .ok feed) (b : Bytes) :
    feed = Feed.eof b ↔ r.Yields index b := by
  cases hback : a.backend with
  | sevenZip reader => exact absurd hback (hb reader)
  | zip z =>
    obtain ⟨-, zf, hzf, rfl⟩ := (Archive.memberFeed_zip hback).mp hfeed
    exact h.zip z index zf hback hzf b
  | tar compressed outer =>
    rw [Archive.memberFeed, hback] at hfeed
    split at hfeed
    · cases hfeed
    · obtain ⟨entry, hentry, rfl⟩ := map_eq_ok.mp hfeed
      obtain ⟨items, hitems, hget⟩ := nthTarEntry_eq_ok.mp hentry
      exact h.tar compressed outer items index entry hback hitems hget b

theorem Positional.memberFeed_sevenZip (h : Positional B data a r)
    (hopen : Archive.openWithFormat B format data = .ok (some a)) {reader : SevenZReader}
    (hb : a.backend = .sevenZip reader) {feed : ByteFeed} :
    a.memberFeed B index = .ok feed ↔
      ∃ f, reader.files[index]? = some f ∧ f.size.toNat ≤ maxInflated ∧
        r.Readable (r.pick f.name) ∧ feed = Feed.eof (r.payload (r.pick f.name)) := by
  rw [Archive.memberFeed_sevenZip hopen hb]
  constructor
  · intro hread
    obtain ⟨f, b, hf, hsize, hread, hlen, rfl⟩ := hread
    obtain ⟨hintact, rfl⟩ := ((h.named reader index f hb hf).2 b).mp hread
    exact ⟨f, hf, hsize, ⟨hintact, hlen⟩, rfl⟩
  · intro hread
    obtain ⟨f, hf, hsize, ⟨hintact, hlen⟩, rfl⟩ := hread
    exact ⟨f, _, hf, hsize, ((h.named reader index f hb hf).2 _).mpr ⟨hintact, rfl⟩, hlen, rfl⟩

theorem Positional.streamed_iff (h : Positional B data a r)
    (hopen : Archive.openWithFormat B format data = .ok (some a))
    (hindex : index < a.entries.length) (hcap : cap ≤ wordMax) (hnames : a.NamesOwn r index)
    (hmax : (∀ reader, a.backend ≠ .sevenZip reader) → cap = wordMax → r.Yields index [])
    (b : Bytes) :
    (∃ feed, a.memberFeed B index = .ok feed ∧ a.streamed cap feed = Feed.eof b) ↔
      r.Yields index b ∧ ∀ reader, a.backend = .sevenZip reader → b.length ≤ maxInflated := by
  by_cases hb : ∃ reader, a.backend = .sevenZip reader
  · obtain ⟨reader, hb⟩ := hb
    have hseen : ∀ feed, a.streamed cap feed = feed := by
      intro feed
      rw [Archive.streamed, hb]
    simp only [hseen, h.memberFeed_sevenZip hopen hb]
    constructor
    · intro hfeed
      obtain ⟨_, ⟨f, hf, hsize, hpicked, rfl⟩, heof⟩ := hfeed
      obtain rfl : r.payload (r.pick f.name) = b := congrArg Feed.items heof
      exact ⟨(hnames reader f hb hf).1 hsize hpicked, fun _ _ => hpicked.2⟩
    · intro hown
      obtain ⟨⟨hintact, rfl⟩, hlen⟩ := hown
      obtain ⟨f, hf⟩ : ∃ f, reader.files[index]? = some f := by
        rw [(Archive.openWithFormat_sevenZip hopen hb).2, List.length_map] at hindex
        exact ⟨_, List.getElem?_eq_getElem hindex⟩
      have hreadable : r.Readable index := ⟨hintact, hlen reader hb⟩
      have hsize : f.size.toNat ≤ maxInflated := h.declared reader index f hb hf hintact ▸ hreadable.2
      have hpicked := (hnames reader f hb hf).2 hreadable
      have hsame := (hnames reader f hb hf).1 hsize hpicked
      exact ⟨_, ⟨f, hf, hsize, hpicked, rfl⟩, by rw [hsame.2]⟩
  · have hother : ∀ reader, a.backend ≠ .sevenZip reader := fun reader hr => hb ⟨reader, hr⟩
    obtain ⟨feed, hfeed⟩ := exists_memberFeed hopen hother hindex
    have hsees : (∃ feed, a.memberFeed B index = .ok feed ∧ a.streamed cap feed = Feed.eof b) ↔
        a.streamed cap feed = Feed.eof b := by
      simp [hfeed]
    rw [hsees, and_iff_left fun reader hr => absurd hr (hother reader)]
    rcases Nat.lt_or_eq_of_le hcap with hlt | rfl
    · rw [Archive.streamed_of_lt hlt, h.memberFeed hother hfeed]
    · have hempty := hmax hother rfl
      rw [Archive.streamed_wordMax hother]
      constructor
      · intro heof
        obtain rfl : [] = b := congrArg Feed.items heof
        exact hempty
      · intro hown
        rw [hown.eq hempty]

theorem Positional.window_drainsTo (h : Positional B data a r) {offset len : Nat}
    (haccess : a.memberAccess index = .ok (.inPlace offset len))
    (hroute : WindowRoute data limits (.inPlace offset len) offset len) :
    PeeledSource.readSeek.DrainsTo (.inPlace ⟨data, offset, len, 0⟩) (r.payload index) := by
  obtain ⟨z, zf, hb, hzf, hmethod, rfl, rfl⟩ := Archive.stored_of_memberAccess haccess
  exact (h.window z index zf hb hzf hmethod).1 ▸ hroute.holds.drainsTo

theorem Positional.index_drainsTo (h : Positional B data a r) {name : String}
    {access : Access} {opened : StoredZipEntry} (haccess : a.memberAccess index = .ok access)
    (hroute : IndexRoute B format data limits index name access opened) :
    PeeledSource.readSeek.DrainsTo (.zran ⟨opened, opened.len.toNat, 0, data⟩)
      (r.payload (r.pick name)) := by
  obtain ⟨z, hb⟩ := Archive.zip_of_memberAccess haccess (by simp [hroute.planned])
  obtain ⟨zf, -, -, hreads⟩ := h.opens z name opened hb hroute.opens
  exact (hreads.holds data).drainsTo

theorem Positional.read_iff (h : Positional B data a r)
    (hopen : Archive.openWithFormat B format data = .ok (some a))
    (hindex : index < a.entries.length) (hnames : a.NamesOwn r index) {b : Bytes} :
    a.read B index = .ok b ↔ r.Yields index b ∧ b.length ≤ maxInflated := by
  have hseen := h.streamed_iff hopen hindex (Nat.zero_le wordMax) hnames
    (fun _ hzero => absurd hzero (by decide)) b
  simp only [Archive.streamed_of_lt (show 0 < wordMax by decide)] at hseen
  rw [Archive.read_eq_ok]
  constructor
  · intro hread
    exact ⟨(hseen.mp ⟨_, hread.1, rfl⟩).1, hread.2⟩
  · intro hown
    obtain ⟨feed, hfeed, rfl⟩ := hseen.mpr ⟨hown.1, fun _ _ => hown.2⟩
    exact ⟨hfeed, hown.2⟩

theorem Positional.exists_spill (h : Positional B data a r)
    (hopen : Archive.openWithFormat B format data = .ok (some a))
    (hindex : index < a.entries.length) (hnames : a.NamesOwn r index) (hintact : r.intact index)
    (hfits : a.Fits limits.maxTotalInflated (r.payload index).length) :
    ∃ b, b.length ≤ limits.maxTotalInflated ∧
      ∃ feed, a.memberFeed B index = .ok feed ∧
        a.streamed limits.maxTotalInflated feed = Feed.eof b := by
  by_cases hmax : (∀ reader, a.backend ≠ .sevenZip reader) ∧ limits.maxTotalInflated = wordMax
  · obtain ⟨hb, hmax⟩ := hmax
    obtain ⟨feed, hfeed⟩ := exists_memberFeed hopen hb hindex
    exact ⟨[], Nat.zero_le _, feed, hfeed, hmax ▸ Archive.streamed_wordMax hb feed⟩
  · exact ⟨r.payload index, hfits.1, (h.streamed_iff hopen hindex limits.maxTotalInflated_le hnames
      (fun hb hcap => absurd ⟨hb, hcap⟩ hmax) _).mpr ⟨⟨hintact, rfl⟩, hfits.2⟩⟩

theorem namesOwn_of_not (hnot : ¬ Misdelivers B format data a limits cap r index) :
    a.NamesOwn r index := by
  intro reader f hb hf
  constructor
  · intro hsize hpicked
    by_contra hother
    exact hnot (.confused hb hf hsize hpicked hother)
  · intro hown
    by_contra hpicked
    exact hnot (.hidden hb hf hown hpicked)

theorem handle_own_of_not (h : Positional B data a r)
    (hopen : Archive.openWithFormat B format data = .ok (some a))
    (hindex : index < a.entries.length)
    (hnot : ¬ Misdelivers B format data a limits cap r index) {entry : ArchiveEntry}
    {access : Access} {source : PeeledSource} (hget : a.entries[index]? = some entry)
    (haccess : a.memberAccess index = .ok access)
    (hsource : executeMemberAccess B format data index entry.name access limits = .ok source) :
    PeeledSource.readSeek.DrainsTo source (r.payload index) := by
  rcases executeMemberAccess_eq_ok.mp hsource with
    ⟨offset, len, hroute, rfl⟩ | ⟨opened, hroute, rfl⟩ | ⟨b, hroute, rfl⟩
  · obtain rfl := hroute.planned
    exact h.window_drainsTo haccess hroute
  · have hsame : r.payload (r.pick entry.name) = r.payload index := by
      by_contra hother
      exact hnot (.indexed hget haccess hroute hother)
    exact hsame ▸ h.index_drainsTo haccess hroute
  · obtain ⟨a', feed, hopen', hfeed, hseen⟩ := hroute.reads
    obtain rfl := Archive.openWithFormat_unique hopen hopen'
    by_cases hmax : (∀ reader, a.backend ≠ .sevenZip reader) ∧ limits.maxTotalInflated = wordMax
    · obtain ⟨hb, hmax⟩ := hmax
      rw [hmax, Archive.streamed_wordMax hb] at hseen
      obtain rfl : [] = b := congrArg Feed.items hseen
      have hnone : r.payload index = [] := by
        by_contra hsome
        exact hnot (.spilled hb hmax haccess hroute hsome)
      exact hnone ▸ holding_drainsTo []
    · obtain ⟨⟨-, rfl⟩, -⟩ := (h.streamed_iff hopen hindex limits.maxTotalInflated_le
        (namesOwn_of_not hnot) (fun hb hcap => absurd ⟨hb, hcap⟩ hmax) b).mp ⟨feed, hfeed, hseen⟩
      exact holding_drainsTo _

theorem handle_of_not (h : Positional B data a r)
    (hopen : Archive.openWithFormat B format data = .ok (some a))
    (hindex : index < a.entries.length) (hdata : data.length ≤ wordMax)
    (hnot : ¬ Misdelivers B format data a limits cap r index) (hintact : r.intact index)
    (hfits : a.Fits limits.maxTotalInflated (r.payload index).length) (htemp : B.temp.Healthy)
    {entry : ArchiveEntry} {access : Access} (hget : a.entries[index]? = some entry)
    (haccess : a.memberAccess index = .ok access) :
    ∃ source, executeMemberAccess B format data index entry.name access limits = .ok source := by
  have hspill : (access = .spillToTemp ∨ access = .zran ∧ (format = .zip →
        ∃ size, memberUncompressedSize B .zip data index = .ok size ∧
          limits.maxIndexBytes < estimateZranIndexBytes size)) →
      ∃ source, executeMemberAccess B format data index entry.name access limits = .ok source := by
    intro hplanned
    obtain ⟨b, hb, feed, hfeed, hseen⟩ :=
      h.exists_spill hopen hindex (namesOwn_of_not hnot) hintact hfits
    have hroute : SpillRoute B format data limits index access b :=
      ⟨hplanned, ⟨a, feed, hopen, hfeed, hseen⟩, hb, htemp.takes _⟩
    exact ⟨_, hroute.opened⟩
  cases access with
  | spillToTemp => exact hspill (.inl rfl)
  | inPlace offset len =>
    obtain ⟨z, zf, hb, hzf, hmethod, rfl, rfl⟩ := Archive.stored_of_memberAccess haccess
    obtain ⟨hpayload, hwindow⟩ := h.window z index zf hb hzf hmethod
    have hinside := hwindow hintact
    have hlen : zf.compressedSize.toNat = (r.payload index).length := by
      rw [← hpayload, List.length_take, List.length_drop]
      omega
    have hroute : WindowRoute data limits (.inPlace zf.dataStart.toNat zf.compressedSize.toNat)
        zf.dataStart.toNat zf.compressedSize.toNat :=
      ⟨rfl, hlen ▸ hfits.1, hinside.trans hdata, hinside⟩
    exact ⟨_, hroute.opened⟩
  | zran =>
    obtain ⟨z, zf, hb, hzf, hdeflated⟩ := Archive.deflated_of_memberAccess haccess
    obtain ⟨rfl, -, -⟩ := Archive.openWithFormat_zip hopen hb
    obtain ⟨zf', hzf', hlisted⟩ := Archive.exists_zipFile hopen hb hindex
    obtain rfl := Except.ok.inj (hzf.symm.trans hzf')
    obtain rfl := Option.some.inj (hlisted.symm.trans hget)
    have hsize := memberUncompressedSize_eq_ok.mpr ⟨a, _, hopen, hlisted, rfl⟩
    by_cases hgate : limits.maxIndexBytes < estimateZranIndexBytes zf.size.toNat
    · exact hspill (.inr ⟨rfl, fun _ => ⟨_, hsize, hgate⟩⟩)
    · cases hentry : B.openEntry data zf.name with
      | ok opened =>
        have hroute : IndexRoute B .zip data limits index zf.name .zran opened :=
          ⟨rfl, rfl, ⟨_, hsize, Nat.le_of_not_lt hgate⟩, htemp.create,
            (htemp.takes data.length).room, htemp.flush, hentry⟩
        exact ⟨_, hroute.opened⟩
      | error e =>
        by_cases hpick : r.pick zf.name = index
        · obtain ⟨opened, hopened⟩ := h.openable z index zf hb hzf hdeflated hintact hpick
          cases hentry.symm.trans hopened
        · exact absurd (.refused hlisted haccess (Nat.le_of_not_lt hgate) htemp hintact hfits.1 hpick
            hentry) hnot

theorem deliversOwn_of_not (h : Positional B data a r)
    (hopen : Archive.openWithFormat B format data = .ok (some a))
    (hindex : index < a.entries.length) (hdata : data.length ≤ wordMax) (hcap : cap ≤ wordMax)
    (hnot : ¬ Misdelivers B format data a limits cap r index) :
    DeliversOwn B format data a limits cap r index := by
  have hnames := namesOwn_of_not hnot
  have hseen := h.streamed_iff hopen hindex hcap hnames fun hb hmax => by
    by_contra hlost
    exact hnot (.streamed hb hmax hlost)
  refine ⟨?_, ?_, ?_, ?_, ?_, ?_⟩
  · intro b hread
    exact ((h.read_iff hopen hindex hnames).mp hread).1
  · intro hreadable
    exact (h.read_iff hopen hindex hnames).mpr ⟨⟨hreadable.1, rfl⟩, hreadable.2⟩
  · intro out out' n hstream
    obtain ⟨feed, b, hfeed, hsees, -, -, rfl, -⟩ := (Archive.streamMember_eq_ok hcap).mp hstream
    obtain ⟨⟨hintact, rfl⟩, -⟩ := (hseen b).mp ⟨feed, hfeed, hsees⟩
    exact ⟨hintact, Sink.append_written _ _⟩
  · intro hintact hfits out hroom
    obtain ⟨feed, hfeed, hsees⟩ := (hseen _).mpr ⟨⟨hintact, rfl⟩, hfits.2⟩
    exact ⟨_, _, (Archive.streamMember_eq_ok hcap).mpr
      ⟨feed, _, hfeed, hsees, hfits.1, hroom, rfl, rfl⟩⟩
  · intro entry access source hget haccess hsource
    exact handle_own_of_not h hopen hindex hnot hget haccess hsource
  · intro hintact hfits htemp entry access hget haccess
    exact handle_of_not h hopen hindex hdata hnot hintact hfits htemp hget haccess

theorem not_deliversOwn (h : Positional B data a r)
    (hopen : Archive.openWithFormat B format data = .ok (some a))
    (hindex : index < a.entries.length) (hcap : cap ≤ wordMax)
    (hmis : Misdelivers B format data a limits cap r index) :
    ¬ DeliversOwn B format data a limits cap r index := by
  intro hown
  cases hmis with
  | @confused reader f hb hf hsize hpicked hother =>
    have hfeed := (h.memberFeed_sevenZip hopen hb).mpr ⟨f, hf, hsize, hpicked, rfl⟩
    exact hother (hown.read_own _ (Archive.read_eq_ok.mpr ⟨hfeed, hpicked.2⟩))
  | @hidden reader f hb hf hreadable hpicked =>
    obtain ⟨hfeed, -⟩ := Archive.read_eq_ok.mp (hown.read hreadable)
    obtain ⟨f', hf', -, hpicked', -⟩ := (h.memberFeed_sevenZip hopen hb).mp hfeed
    obtain rfl := Option.some.inj (hf.symm.trans hf')
    exact hpicked hpicked'
  | @indexed entry access opened hget haccess hroute hother =>
    have hread := hown.handle_own entry access _ hget haccess hroute.opened
    exact hother ((h.index_drainsTo haccess hroute).unique hread)
  | @refused entry e hget haccess hgate htemp hintact hfits hother hclosed =>
    obtain ⟨z, hb⟩ := Archive.zip_of_memberAccess haccess (by simp)
    have hzip : ∀ reader, a.backend = .sevenZip reader →
        (r.payload index).length ≤ maxInflated := by
      intro reader hr
      cases hb.symm.trans hr
    obtain ⟨source, hsource⟩ := hown.handle hintact ⟨hfits, hzip⟩ htemp entry .zran hget haccess
    obtain ⟨rfl, -, -⟩ := Archive.openWithFormat_zip hopen hb
    have hsize := memberUncompressedSize_eq_ok.mpr ⟨a, entry, hopen, hget, rfl⟩
    obtain ⟨opened, hroute⟩ := index_of_gate hsource hsize hgate
    cases hclosed.symm.trans hroute.opens
  | streamed hb hmax hlost =>
    subst hmax
    obtain ⟨feed, hfeed⟩ := exists_memberFeed hopen hb hindex
    obtain ⟨hintact, hwritten⟩ := hown.stream_own (Sink.buffer "") _ _
      ((Archive.streamMember_eq_ok hcap).mpr ⟨feed, [], hfeed, Archive.streamed_wordMax hb _,
        Nat.zero_le _, by simp [Sink.hasRoom, Sink.buffer], rfl, rfl⟩)
    exact hlost ⟨hintact, by simpa [Sink.buffer] using hwritten⟩
  | @spilled access hb hmax haccess hroute hsome =>
    have hread := hown.handle_own _ access _ (List.getElem?_eq_getElem hindex) haccess
      hroute.opened
    exact hsome (hread.unique (holding_drainsTo []))

/-- An entry's extractions bring its own payload, and succeed where that decodes within the
caps, exactly when its name gets what it records itself and no copy of it runs under the
largest cap. -/
theorem deliversOwn_iff (h : Positional B data a r)
    (hopen : Archive.openWithFormat B format data = .ok (some a))
    (hindex : index < a.entries.length) (hdata : data.length ≤ wordMax) (hcap : cap ≤ wordMax) :
    DeliversOwn B format data a limits cap r index ↔
      ¬ Misdelivers B format data a limits cap r index :=
  ⟨fun hown hmis => not_deliversOwn h hopen hindex hcap hmis hown,
    deliversOwn_of_not h hopen hindex hdata hcap⟩

end

/-- Two files `a` of one and of two bytes. -/
def twinSevenZip : Bytes := [
  0x37, 0x7A, 0xBC, 0xAF, 0x27, 0x1C, 0x00, 0x04, 0x72, 0xF2, 0x17, 0xFA, 0x03, 0x00, 0x00, 0x00,
  0x00, 0x00, 0x00, 0x00, 0x32, 0x00, 0x00, 0x00, 0x00, 0x00, 0x00, 0x00, 0x0B, 0xD3, 0x37, 0x11,
  0x41, 0x42, 0x43, 0x01, 0x04, 0x06, 0x00, 0x01, 0x09, 0x03, 0x00, 0x07, 0x0B, 0x01, 0x00, 0x01,
  0x01, 0x00, 0x0C, 0x03, 0x00, 0x08, 0x0D, 0x02, 0x09, 0x01, 0x0A, 0x01, 0x8B, 0x9E, 0xD9, 0xD3,
  0x52, 0x2F, 0x43, 0x6C, 0x00, 0x00, 0x05, 0x02, 0x11, 0x09, 0x00, 0x61, 0x00, 0x00, 0x00, 0x61,
  0x00, 0x00, 0x00, 0x00, 0x00]

/-- The same two files, the second one under a checksum that is not its own. -/
def badTwinSevenZip : Bytes := [
  0x37, 0x7A, 0xBC, 0xAF, 0x27, 0x1C, 0x00, 0x04, 0x02, 0x03, 0x27, 0xEC, 0x03, 0x00, 0x00, 0x00,
  0x00, 0x00, 0x00, 0x00, 0x32, 0x00, 0x00, 0x00, 0x00, 0x00, 0x00, 0x00, 0x7F, 0xE9, 0xCC, 0xAF,
  0x41, 0x42, 0x43, 0x01, 0x04, 0x06, 0x00, 0x01, 0x09, 0x03, 0x00, 0x07, 0x0B, 0x01, 0x00, 0x01,
  0x01, 0x00, 0x0C, 0x03, 0x00, 0x08, 0x0D, 0x02, 0x09, 0x01, 0x0A, 0x01, 0x8B, 0x9E, 0xD9, 0xD3,
  0xAD, 0xD0, 0xBC, 0x93, 0x00, 0x00, 0x05, 0x02, 0x11, 0x09, 0x00, 0x61, 0x00, 0x00, 0x00, 0x61,
  0x00, 0x00, 0x00, 0x00, 0x00]

/-- What the two files record, of which the name gets the chosen one. -/
def twinRecorded (image : Bytes) (chosen : Nat) : Recorded where
  payload := fun index => [[0x41], [0x42, 0x43]].getD index []
  intact := fun index => index = 0 ∨ index = 1 ∧ image = twinSevenZip
  pick := fun _ => chosen

def twinReader (image : Bytes) (chosen : Nat) : SevenZReader where
  files := [⟨"a", 1, false⟩, ⟨"a", 2, false⟩]
  readFile := fun name =>
    if name = "a" then
      if chosen = 1 ∧ image ≠ twinSevenZip then .error "ChecksumVerificationFailed"
      else .ok ((twinRecorded image chosen).payload chosen)
    else .error "FileNotFound"

def twinReaders (image : Bytes) (chosen : Nat) : Backends :=
  { Backends.inert with
    sevenZip := fun data =>
      if data = image then .ok (twinReader image chosen) else .error "BadSignature" }

def twinArchive (image : Bytes) (chosen : Nat) : Archive :=
  ⟨.sevenZip, (twinReader image chosen).files.map sevenZListing, .sevenZip (twinReader image chosen)⟩

theorem twinSevenZip_opens (image : Bytes) (chosen : Nat) :
    Archive.openWithFormat (twinReaders image chosen) .sevenZip image =
      .ok (some (twinArchive image chosen)) := by
  apply Archive.openWithFormat_of_sevenZip
  simp [twinReaders]

theorem twinSevenZip_positional (image : Bytes) {chosen : Nat} (h : chosen < 2) :
    Positional (twinReaders image chosen) image (twinArchive image chosen)
      (twinRecorded image chosen) where
  tar := by
    intro compressed outer items index entry hb
    cases hb
  zip := by
    intro z index zf hb
    cases hb
  window := by
    intro z index zf hb
    cases hb
  opens := by
    intro z nm entry hb
    cases hb
  openable := by
    intro z index zf hb
    cases hb
  named := by
    intro reader index f hb hf
    obtain rfl := Backend.sevenZip.inj hb
    have hname : f.name = "a" := by
      have hmem := List.mem_of_getElem? hf
      simp only [twinReader, List.mem_cons, List.not_mem_nil, or_false] at hmem
      rcases hmem with rfl | rfl <;> rfl
    have hpicked : chosen = 0 ∨ chosen = 1 := by omega
    refine ⟨by rcases hpicked with rfl | rfl <;> exact ⟨_, rfl, hname.symm⟩, fun b => ?_⟩
    by_cases himage : image = twinSevenZip <;> rcases hpicked with rfl | rfl <;>
      simp [twinReader, twinRecorded, Recorded.Yields, hname, himage, eq_comm]
  declared := by
    intro reader index f hb hf hintact
    obtain rfl := Backend.sevenZip.inj hb
    rcases hintact with rfl | ⟨rfl, -⟩ <;> obtain rfl := Option.some.inj hf <;> rfl

/-- Whichever of the two files the name is given, reading the other brings that one, or nothing
where that one is damaged. -/
theorem twinSevenZip_confused :
    (Positional (twinReaders twinSevenZip 0) twinSevenZip (twinArchive twinSevenZip 0)
          (twinRecorded twinSevenZip 0) ∧
        ¬ DeliversOwn (twinReaders twinSevenZip 0) .sevenZip twinSevenZip (twinArchive twinSevenZip 0)
          Limits.default Limits.default.maxTotalInflated (twinRecorded twinSevenZip 0) 1) ∧
      (Positional (twinReaders twinSevenZip 1) twinSevenZip (twinArchive twinSevenZip 1)
          (twinRecorded twinSevenZip 1) ∧
        ¬ DeliversOwn (twinReaders twinSevenZip 1) .sevenZip twinSevenZip (twinArchive twinSevenZip 1)
          Limits.default Limits.default.maxTotalInflated (twinRecorded twinSevenZip 1) 0) ∧
      Positional (twinReaders badTwinSevenZip 1) badTwinSevenZip (twinArchive badTwinSevenZip 1)
          (twinRecorded badTwinSevenZip 1) ∧
        ¬ DeliversOwn (twinReaders badTwinSevenZip 1) .sevenZip badTwinSevenZip
          (twinArchive badTwinSevenZip 1) Limits.default Limits.default.maxTotalInflated
          (twinRecorded badTwinSevenZip 1) 0 := by
  refine ⟨⟨twinSevenZip_positional _ (by decide), fun hown => ?_⟩,
    ⟨twinSevenZip_positional _ (by decide), fun hown => ?_⟩,
    twinSevenZip_positional _ (by decide), fun hown => ?_⟩
  · have hfirst := (hown.read_own [0x41] (by decide)).2
    exact absurd hfirst (by decide)
  · have hsecond := (hown.read_own [0x42, 0x43] (by decide)).2
    exact absurd hsecond (by decide)
  · have hread := hown.read ⟨.inl rfl, by decide⟩
    exact absurd hread (by decide)

/-- The file the name is given is delivered. -/
theorem twinSevenZip_first :
    DeliversOwn (twinReaders twinSevenZip 0) .sevenZip twinSevenZip (twinArchive twinSevenZip 0)
      Limits.default Limits.default.maxTotalInflated (twinRecorded twinSevenZip 0) 0 :=
  (deliversOwn_iff (twinSevenZip_positional _ (by decide)) (twinSevenZip_opens _ 0) (by decide)
    (by decide) (by decide)).mpr (by
    intro h
    rcases h with ⟨hb, hf, -, -, hother⟩ | ⟨hb, hf, hown, hpicked⟩ | ⟨-, -, hroute, -⟩ |
      ⟨-, haccess, -⟩ | ⟨hb, -⟩ | ⟨hb, -⟩
    · exact hother ⟨.inl rfl, rfl⟩
    · exact hpicked hown
    · cases hroute.zip
    · obtain ⟨z, hz⟩ := Archive.zip_of_memberAccess haccess (by simp)
      cases hz
    · exact hb _ rfl
    · exact hb _ rfl)

end ArchiveCore
