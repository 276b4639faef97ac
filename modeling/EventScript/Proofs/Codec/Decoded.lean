import EventScript.Proofs.Codec.Faithful
import EventScript.Proofs.Codec.Delimited

/-!
What reading answers. Whatever bytes it comes from, a datum that was read comes back unchanged when
it is written and read again, and it can be written if the input was not too long.
-/
namespace EventScript

open Wire

namespace Decoder

variable {α β : Type} {p : Decoder α} {r r' : Reader} {a : α} {b : β}

theorem bind_eq_ok {f : α → Decoder β} : (p >>= f).onReader r = (.ok b, r') ↔
    ∃ a r₁, p.onReader r = (.ok a, r₁) ∧ (f a).onReader r₁ = (.ok b, r') := by
  rw [onReader_bind]
  rcases p.onReader r with ⟨_ | a, r₁⟩
  · simp
  · simp [and_assoc]

theorem pure_eq_ok {c : α} : (pure a : Decoder α).onReader r = (.ok c, r') ↔ c = a ∧ r' = r := by
  rw [onReader_pure, Prod.mk.injEq, Except.ok.injEq, eq_comm, eq_comm (a := r)]

/-! A successful read takes some bytes at least, and its answer is bounded. -/

theorem read_byte {b : UInt8} (h : byte.onReader r = (.ok b, r')) :
    r'.bytes.length < r.bytes.length := by
  obtain ⟨_ | ⟨b, bytes⟩, position⟩ := r
  · cases h
  · cases h
    simp

theorem read_exactly {n : Nat} {bytes : List UInt8}
    (h : (exactly n).onReader r = (.ok bytes, r')) :
    bytes.length = n ∧ n + r'.bytes.length ≤ r.bytes.length := by
  rw [onReader_exactly] at h
  split at h
  · cases h
    simp
    omega
  · cases h

theorem read_varintGroups {start left shift value n : Nat}
    (h : (varintGroups start left shift value).onReader r = (.ok n, r')) :
    n < lengthLimit ∧ r'.bytes.length < r.bytes.length := by
  induction left generalizing shift value r with
  | zero => cases h
  | succ left ih =>
    obtain ⟨b, r₁, hb, h⟩ := bind_eq_ok.1 h
    have hbyte := read_byte hb
    split at h
    · obtain ⟨rfl, rfl⟩ := pure_eq_ok.1 h
      exact ⟨Nat.mod_lt _ (by decide), hbyte⟩
    · obtain ⟨hn, hrest⟩ := ih h
      exact ⟨hn, by omega⟩

theorem read_varint {n : Nat} (h : varint.onReader r = (.ok n, r')) :
    n < lengthLimit ∧ r'.bytes.length < r.bytes.length := by
  rw [varint, onReader_get_bind] at h
  exact read_varintGroups h

theorem read_number {n : Number} (h : number.onReader r = (.ok n, r')) :
    r'.bytes.length < r.bytes.length := by
  obtain ⟨bytes, r₁, hbytes, h⟩ := bind_eq_ok.1 h
  obtain ⟨_, rfl⟩ := pure_eq_ok.1 h
  have := read_exactly hbytes
  omega

theorem read_string {s : String} (h : string.onReader r = (.ok s, r')) :
    (utf8 s).length < lengthLimit ∧ (utf8 s).length + r'.bytes.length < r.bytes.length := by
  obtain ⟨n, r₁, hn, h⟩ := bind_eq_ok.1 h
  obtain ⟨hlimit, hlength⟩ := read_varint hn
  rw [onReader_get_bind] at h
  obtain ⟨bytes, r₂, hbytes, hs⟩ := bind_eq_ok.1 h
  obtain ⟨rfl, hcontent⟩ := read_exactly hbytes
  split at hs
  · rename_i hutf8
    obtain ⟨rfl, rfl⟩ := pure_eq_ok.1 hs
    rw [utf8_of_fromUTF8? hutf8]
    exact ⟨hlimit, by omega⟩
  · cases hs

theorem read_segment {s : Segment} (h : segment.onReader r = (.ok s, r')) :
    s.color ≠ some 0xffffffff ∧ s.width + r'.bytes.length ≤ r.bytes.length := by
  obtain ⟨color, r₁, hcolor, h⟩ := bind_eq_ok.1 h
  obtain ⟨hlimit, hfirst⟩ := read_varint hcolor
  obtain ⟨content, r₂, hcontent, h⟩ := bind_eq_ok.1 h
  obtain ⟨_, hsecond⟩ := read_string hcontent
  obtain ⟨rfl, rfl⟩ := pure_eq_ok.1 h
  constructor
  · -- The color is one less than a number below 2 ^ 32.
    rw [lengthLimit] at hlimit
    split
    · simp
    · intro heq
      have := congrArg UInt32.toNat (Option.some.inj heq)
      simp at this
      omega
  · simp only [Segment.width]
    omega

/-- Many items of which each was read from at least the bytes it weighs. -/
theorem read_many {item : Decoder α} {bound : Nat} {P : α → Prop} (weight : α → Nat)
    (hitem : ∀ {r a r'}, r.bytes.length < bound → item.onReader r = (.ok a, r') →
      P a ∧ weight a + r'.bytes.length ≤ r.bytes.length)
    {count : Nat} {read as : List α} (hr : r.bytes.length < bound)
    (h : (many item count read).onReader r = (.ok as, r')) :
    ∃ more, as = read.reverse ++ more ∧ more.length = count ∧ (∀ a ∈ more, P a) ∧
      (more.map weight).sum + r'.bytes.length ≤ r.bytes.length := by
  induction count generalizing read r with
  | zero =>
    obtain ⟨rfl, rfl⟩ := pure_eq_ok.1 h
    exact ⟨[], by simp⟩
  | succ count ih =>
    obtain ⟨a, r₁, ha, h⟩ := bind_eq_ok.1 h
    obtain ⟨hP, hfirst⟩ := hitem hr ha
    obtain ⟨more, rfl, rfl, hmore, hrest⟩ := ih (by omega) h
    refine ⟨a :: more, by simp, rfl, List.forall_mem_cons.2 ⟨hP, hmore⟩, ?_⟩
    rw [List.map_cons, List.sum_cons]
    omega

end Decoder

namespace Datum

open Decoder

variable {r r' : Reader}

/-- What reading a datum inside `depth` containers promises: it comes back unchanged when written
and read again, and it can be written. -/
def Settled (depth : Nat) (d : Datum) : Prop :=
  d.Everywhere Faithful ∧ ∃ bytes, encodeAt depth d = .ok bytes

theorem settled_number {depth : Nat} (hdepth : depth ≤ maxDepth) (n : Number) :
    (number n).Settled depth :=
  ⟨everywhere_of_children_nil trivial rfl, _, encodeAt_number_eq_ok.2 ⟨hdepth, rfl⟩⟩

theorem settled_string {depth : Nat} (hdepth : depth ≤ maxDepth) {s : String}
    (hs : (utf8 s).length < lengthLimit) : (string s).Settled depth :=
  ⟨everywhere_of_children_nil trivial rfl, _, encodeAt_string_eq_ok.2 ⟨hdepth, hs, rfl⟩⟩

theorem settled_vector {depth : Nat} (hdepth : depth ≤ maxDepth) (v : Vec3) :
    (vector v).Settled depth :=
  ⟨everywhere_of_children_nil trivial rfl, _, encodeAt_vector_eq_ok.2 ⟨hdepth, rfl⟩⟩

theorem settled_uuid {depth : Nat} (hdepth : depth ≤ maxDepth) (u : Uuid) :
    (uuid u).Settled depth :=
  ⟨everywhere_of_children_nil trivial rfl, _, encodeAt_uuid_eq_ok.2 ⟨hdepth, rfl⟩⟩

theorem encodeItems_of_settled {depth : Nat} {ds : List Datum} (h : ∀ d ∈ ds, d.Settled depth) :
    ∃ bytes, encodeItems depth ds = .ok bytes := by
  obtain ⟨pieces, hpieces⟩ := exists_forall₂ fun d hd => (h d hd).2
  exact ⟨_, encodeItems_eq_ok.2 ⟨pieces, hpieces, rfl⟩⟩

theorem settled_list {depth : Nat} (hdepth : depth ≤ maxDepth) {items : List Datum}
    (hlength : items.length < lengthLimit) (h : ∀ d ∈ items, d.Settled (depth + 1)) :
    (list items).Settled depth := by
  obtain ⟨contents, hcontents⟩ := encodeItems_of_settled h
  exact ⟨everywhere_list.2 ⟨trivial, fun d hd => (h d hd).1⟩, _,
    encodeAt_list_eq_ok.2 ⟨hdepth, hlength, contents, hcontents, rfl⟩⟩

theorem settled_struct {depth : Nat} (hdepth : depth ≤ maxDepth) {fields : List Datum}
    (hlength : fields.length < lengthLimit) (h : ∀ d ∈ fields, d.Settled (depth + 1)) :
    (struct fields).Settled depth := by
  obtain ⟨contents, hcontents⟩ := encodeItems_of_settled h
  exact ⟨everywhere_struct.2 ⟨trivial, fun d hd => (h d hd).1⟩, _,
    encodeAt_struct_eq_ok.2 ⟨hdepth, hlength, contents, hcontents, rfl⟩⟩

theorem settled_ofEntries {depth : Nat} (hdepth : depth ≤ maxDepth) {es : List (Datum × Datum)}
    (hlength : es.length < lengthLimit)
    (h : ∀ e ∈ es, e.1.Settled (depth + 1) ∧ e.2.Settled (depth + 1)) :
    (ofEntries es).Settled depth := by
  have hkeys := keysDiffer_gather fun e he => ⟨(h e he).1.1, (h e he).2.1⟩
  have hes := forall_gather h
  have hwrites : ∀ e ∈ gather es, ∃ piece, WritesEntry (depth + 1) e piece := fun e he => by
    obtain ⟨⟨_, key, hkey⟩, _, value, hvalue⟩ := hes e he
    exact ⟨_, key, value, hkey, hvalue, rfl⟩
  obtain ⟨pieces, hpieces⟩ := exists_forall₂ hwrites
  have hcontents := encodeEntries_eq_ok.2 ⟨pieces, hpieces, rfl⟩
  have hcount := Nat.lt_of_le_of_lt (length_gather_le es) hlength
  exact ⟨everywhere_dict.2 ⟨hkeys, fun e he => ⟨(hes e he).1.1, (hes e he).2.1⟩⟩, _,
    encodeAt_dict_eq_ok.2 ⟨hdepth, hcount, _, hcontents, rfl⟩⟩

theorem settled_text {depth : Nat} (hdepth : depth ≤ maxDepth) {ss : List Segment}
    (hlength : ss.length < lengthLimit) (hcolors : ∀ s ∈ ss, s.color ≠ some 0xffffffff)
    (hwidth : (ss.map Segment.width).sum < lengthLimit) :
    (text (.ofSegments ss)).Settled depth := by
  refine ⟨everywhere_of_children_nil (faithful_text_ofSegments hcolors) rfl, ?_⟩
  have hwrites : ∀ s ∈ (RichText.ofSegments ss).segments, ∃ piece, WritesSegment s piece :=
    fun s hs => by
      have := RichText.width_le_of_mem hs
      rw [RichText.width_ofSegments] at this
      exact ⟨_, Nat.lt_of_le_of_lt this hwidth, rfl⟩
  obtain ⟨pieces, hpieces⟩ := exists_forall₂ hwrites
  have hcount := Nat.lt_of_le_of_lt RichText.length_ofSegments_le hlength
  exact ⟨_, encodeAt_text_eq_ok.2 ⟨hdepth, hcount, _, segments_eq_ok.2 ⟨pieces, hpieces, rfl⟩, rfl⟩⟩

/-- The decoder answers settled data, and takes some bytes for each. -/
def Settles (depth : Nat) (item : Decoder Datum) : Prop :=
  ∀ r d r', r.bytes.length < lengthLimit → item.onReader r = (.ok d, r') →
    d.Settled depth ∧ r'.bytes.length < r.bytes.length

theorem read_items {depth count : Nat} {item : Decoder Datum} (hitem : Settles depth item)
    {ds : List Datum} (hr : r.bytes.length < lengthLimit)
    (h : (many item count []).onReader r = (.ok ds, r')) :
    ds.length = count ∧ (∀ d ∈ ds, d.Settled depth) ∧ r'.bytes.length ≤ r.bytes.length := by
  obtain ⟨_, rfl, hcount, hds, hrest⟩ := read_many (P := Settled depth) (fun _ => 0)
    (fun hr h => by
      obtain ⟨hd, hlt⟩ := hitem _ _ _ hr h
      exact ⟨hd, by omega⟩) hr h
  exact ⟨hcount, hds, by omega⟩

theorem read_entries {depth count : Nat} {item : Decoder Datum} (hitem : Settles depth item)
    {es : List (Datum × Datum)} (hr : r.bytes.length < lengthLimit)
    (h : (many (entry item) count []).onReader r = (.ok es, r')) :
    es.length = count ∧ (∀ e ∈ es, e.1.Settled depth ∧ e.2.Settled depth) ∧
      r'.bytes.length ≤ r.bytes.length := by
  obtain ⟨_, rfl, hcount, hes, hrest⟩ := read_many
    (P := fun e => e.1.Settled depth ∧ e.2.Settled depth) (fun _ => 0)
    (fun hr h => by
      obtain ⟨k, r₁, hk, h⟩ := Decoder.bind_eq_ok.1 h
      obtain ⟨v, r₂, hv, h⟩ := Decoder.bind_eq_ok.1 h
      obtain ⟨rfl, rfl⟩ := Decoder.pure_eq_ok.1 h
      obtain ⟨hk, hlt⟩ := hitem _ _ _ hr hk
      obtain ⟨hv, hlt'⟩ := hitem _ _ _ (by omega) hv
      exact ⟨⟨hk, hv⟩, by omega⟩) hr h
  exact ⟨hcount, hes, by omega⟩

/-- A datum read where one more container may be open than for what it holds. -/
theorem settles_datumTo_succ {depth levels : Nat} (hdepth : depth ≤ maxDepth)
    (inner : Settles (depth + 1) (datumTo levels)) : Settles depth (datumTo (levels + 1)) := by
  intro r d r' hr h
  rw [datumTo] at h
  obtain ⟨tag, r₁, htag, h⟩ := Decoder.bind_eq_ok.1 h
  obtain ⟨_, hr₁⟩ := read_varint htag
  split at h
  case h_1 =>
    obtain ⟨n, r₂, hn, h⟩ := Decoder.bind_eq_ok.1 h
    obtain ⟨rfl, rfl⟩ := Decoder.pure_eq_ok.1 h
    have := read_number hn
    exact ⟨settled_number hdepth n, by omega⟩
  case h_2 =>
    obtain ⟨s, r₂, hs, h⟩ := Decoder.bind_eq_ok.1 h
    obtain ⟨rfl, rfl⟩ := Decoder.pure_eq_ok.1 h
    obtain ⟨hlimit, _⟩ := read_string hs
    exact ⟨settled_string hdepth hlimit, by omega⟩
  case h_3 =>
    obtain ⟨count, r₂, hcount, h⟩ := Decoder.bind_eq_ok.1 h
    obtain ⟨items, r₃, hitems, h⟩ := Decoder.bind_eq_ok.1 h
    obtain ⟨rfl, rfl⟩ := Decoder.pure_eq_ok.1 h
    obtain ⟨hlimit, _⟩ := read_varint hcount
    obtain ⟨rfl, hsettled, _⟩ := read_items inner (by omega) hitems
    exact ⟨settled_list hdepth hlimit hsettled, by omega⟩
  case h_4 =>
    obtain ⟨count, r₂, hcount, h⟩ := Decoder.bind_eq_ok.1 h
    obtain ⟨es, r₃, hes, h⟩ := Decoder.bind_eq_ok.1 h
    obtain ⟨rfl, rfl⟩ := Decoder.pure_eq_ok.1 h
    obtain ⟨hlimit, _⟩ := read_varint hcount
    obtain ⟨rfl, hsettled, _⟩ := read_entries inner (by omega) hes
    exact ⟨settled_ofEntries hdepth hlimit hsettled, by omega⟩
  case h_5 =>
    obtain ⟨count, r₂, hcount, h⟩ := Decoder.bind_eq_ok.1 h
    obtain ⟨fields, r₃, hfields, h⟩ := Decoder.bind_eq_ok.1 h
    obtain ⟨rfl, rfl⟩ := Decoder.pure_eq_ok.1 h
    obtain ⟨hlimit, _⟩ := read_varint hcount
    obtain ⟨rfl, hsettled, _⟩ := read_items inner (by omega) hfields
    exact ⟨settled_struct hdepth hlimit hsettled, by omega⟩
  case h_6 =>
    obtain ⟨x, r₂, hx, h⟩ := Decoder.bind_eq_ok.1 h
    obtain ⟨y, r₃, hy, h⟩ := Decoder.bind_eq_ok.1 h
    obtain ⟨z, r₄, hz, h⟩ := Decoder.bind_eq_ok.1 h
    obtain ⟨rfl, rfl⟩ := Decoder.pure_eq_ok.1 h
    have := read_number hx
    have := read_number hy
    have := read_number hz
    exact ⟨settled_vector hdepth ⟨x, y, z⟩, by omega⟩
  case h_7 =>
    obtain ⟨bytes, r₂, hbytes, h⟩ := Decoder.bind_eq_ok.1 h
    obtain ⟨rfl, rfl⟩ := Decoder.pure_eq_ok.1 h
    have := read_exactly hbytes
    exact ⟨settled_uuid hdepth _, by omega⟩
  case h_8 =>
    obtain ⟨count, r₂, hcount, h⟩ := Decoder.bind_eq_ok.1 h
    obtain ⟨ss, r₃, hss, h⟩ := Decoder.bind_eq_ok.1 h
    obtain ⟨rfl, rfl⟩ := Decoder.pure_eq_ok.1 h
    obtain ⟨hlimit, _⟩ := read_varint hcount
    obtain ⟨_, rfl, rfl, hcolors, hwidth⟩ := read_many
      (P := fun s => s.color ≠ some 0xffffffff) Segment.width
      (fun _ => read_segment) (by omega) hss
    exact ⟨settled_text hdepth hlimit hcolors (by omega), by omega⟩
  case h_9 => cases h

theorem settles_datumTo {levels : Nat} (hlevels : levels ≤ maxDepth + 1) :
    Settles (maxDepth + 1 - levels) (datumTo levels) := by
  induction levels with
  | zero => exact fun _ _ _ _ h => nomatch h
  | succ levels ih =>
    have hdepth : maxDepth + 1 - levels = maxDepth + 1 - (levels + 1) + 1 := by omega
    rw [hdepth] at ih
    exact settles_datumTo_succ (by omega) (ih (by omega))

/-- Reading a datum from an input below 2 ^ 32 bytes. -/
theorem settles_datum : Settles 0 Decoder.datum := settles_datumTo (Nat.le_refl _)

end Datum

/-! What reading answers, however long the input is. -/

namespace Decoder

open Datum

variable {α β : Type} {P : α → Prop} {Q : β → Prop}

/-- Whatever is read has the property. -/
def Reads (P : α → Prop) (p : Decoder α) : Prop := ∀ r a r', p.onReader r = (.ok a, r') → P a

theorem reads_any (p : Decoder α) : Reads (fun _ => True) p := fun _ _ _ _ => trivial

theorem reads_pure {a : α} (ha : P a) : Reads P (pure a) := fun _ _ _ h => by
  obtain ⟨rfl, _⟩ := pure_eq_ok.1 h
  exact ha

theorem reads_fail (e : CodecError) : Reads P (fail e) := fun _ _ _ h => nomatch h

theorem reads_bind {p : Decoder α} {f : α → Decoder β} (hp : Reads P p)
    (hf : ∀ a, P a → Reads Q (f a)) : Reads Q (p >>= f) := fun _ _ _ h => by
  obtain ⟨a, _, ha, h⟩ := bind_eq_ok.1 h
  exact hf a (hp _ _ _ ha) _ _ _ h

theorem reads_many {item : Decoder α} (hitem : Reads P item) {count : Nat} {read : List α}
    (hread : ∀ a ∈ read, P a) : Reads (fun as => ∀ a ∈ as, P a) (many item count read) := by
  induction count generalizing read with
  | zero => exact reads_pure (by simpa using hread)
  | succ count ih =>
    exact reads_bind hitem fun a ha => ih (List.forall_mem_cons.2 ⟨ha, hread⟩)

theorem reads_entry {P : Datum → Prop} {item : Decoder Datum} (hitem : Reads P item) :
    Reads (fun e => P e.1 ∧ P e.2) (entry item) :=
  reads_bind hitem fun _ hk => reads_bind hitem fun _ hv => reads_pure ⟨hk, hv⟩

theorem reads_datumTo (levels : Nat) : Reads (Everywhere Faithful) (datumTo levels) := by
  induction levels with
  | zero => exact reads_fail _
  | succ levels inner =>
    have plain {d : Datum} (hd : d.Faithful) (hnil : d.children = []) :
        Reads (Everywhere Faithful) (pure d : Decoder Datum) :=
      reads_pure (everywhere_of_children_nil hd hnil)
    rw [datumTo]
    refine reads_bind (reads_any _) fun tag _ => ?_
    split
    case h_1 | h_2 | h_7 => exact reads_bind (reads_any _) fun _ _ => plain trivial rfl
    case h_3 | h_5 =>
      exact reads_bind (reads_any _) fun _ _ => reads_bind (reads_many inner (by simp))
        fun ds hds => reads_pure (everywhere_iff.2 ⟨trivial, hds⟩)
    case h_4 =>
      exact reads_bind (reads_any _) fun _ _ =>
        reads_bind (reads_many (reads_entry inner) (by simp)) fun es hes =>
          reads_pure (everywhere_dict.2 ⟨keysDiffer_gather hes, forall_gather hes⟩)
    case h_6 =>
      exact reads_bind (reads_any _) fun _ _ => reads_bind (reads_any _) fun _ _ =>
        reads_bind (reads_any _) fun _ _ => plain trivial rfl
    case h_8 =>
      have hsegment : Reads (fun s => s.color ≠ some 0xffffffff) segment :=
        fun _ _ _ h => (read_segment h).1
      exact reads_bind (reads_any _) fun _ _ => reads_bind (reads_many hsegment (by simp))
        fun ss hss => plain (faithful_text_ofSegments hss) rfl
    case h_9 => exact reads_fail _

end Decoder

end EventScript
