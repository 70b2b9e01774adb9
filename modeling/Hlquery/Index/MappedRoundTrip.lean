import Hlquery.Index.MappedFormat

/-!
# What is written is read back

The writer and the reader of the mapped files are developed separately in the source, and meet
only in the bytes. Each layer of the format gets its own round trip: the envelope
(`validateMMapFile_mmapFile`), the entries of one posting list (`decodeEntries_writeEntries`), and
the scan of the term map (`findTermLoop_mapEntries`), which may stop early because the terms are
written in order and `fastStringCompare` decides the same order.

`searchTerm_writeIndex` puts them together. Two numbers of the format are narrower than what is
counted: the number of terms is kept in 32 bits, and the comparison converts the length of the
term that is looked up to `int`. The empty term is never looked up.
-/

set_option autoImplicit false

namespace Hlquery.Index

open Bytes Wire

/-! ## The envelope -/

theorem stableHash32_lt (value : Bytes) : stableHash32 value < 2 ^ 32 := by
  refine List.foldlRecOn (motive := (· < 2 ^ 32)) value _ (by decide) fun _ _ _ _ => ?_
  exact Nat.mod_lt _ (by decide)

theorem stableChecksum64_lt (data : Bytes) : stableChecksum64 data < 2 ^ 64 := by
  refine List.foldlRecOn (motive := (· < 2 ^ 64)) data _ (by decide) fun _ _ _ _ => ?_
  exact Nat.mod_lt _ (by decide)

theorem readValue_le {w n : Nat} (hn : n < 256 ^ w) (s : Bytes) :
    readValue w (le w n ++ s) 0 = some n := by
  unfold readValue
  rw [List.drop_zero, readLe_append hn]
  rfl

theorem readValue_behind {w n offset : Nat} {front : Bytes} (hf : front.length = n) (s : Bytes) :
    readValue w (front ++ s) (n + offset) = readValue w s offset := by
  unfold readValue
  rw [← List.drop_drop, List.drop_left' hf]

/-- **A file that was written passes the validation**, and gives its payload back. -/
theorem validateMMapFile_mmapFile {magic payload : Bytes} (hm : magic.length = 8)
    (hp : payload.length < 2 ^ 64) :
    validateMMapFile (mmapFile magic payload) magic = some payload := by
  -- the offset of each field is the length of what stands before it
  have hbehind : ∀ w offset, readValue w (mmapFile magic payload) (8 + offset) =
      readValue w (le 4 kMMapIndexVersion ++ (le 4 kMMapFileHeaderSize ++
        (le 4 kMMapIndexEndianMarker ++ (le 4 0 ++ (le 8 payload.length ++
          (le 8 (stableChecksum64 payload) ++ payload)))))) offset :=
    fun _ _ => readValue_behind hm _
  have hversion : readValue 4 (mmapFile magic payload) 8 = some kMMapIndexVersion :=
    (hbehind 4 0).trans (readValue_le (by decide) _)
  have hheader : readValue 4 (mmapFile magic payload) 12 = some kMMapFileHeaderSize := by
    refine (hbehind 4 (4 + 0)).trans ?_
    rw [readValue_behind (length_le ..), readValue_le (by decide)]
  have hendian : readValue 4 (mmapFile magic payload) 16 = some kMMapIndexEndianMarker := by
    refine (hbehind 4 (4 + (4 + 0))).trans ?_
    iterate 2 rw [readValue_behind (length_le ..)]
    rw [readValue_le (by decide)]
  have hsize : readValue 8 (mmapFile magic payload) 24 = some payload.length := by
    refine (hbehind 8 (4 + (4 + (4 + (4 + 0))))).trans ?_
    iterate 4 rw [readValue_behind (length_le ..)]
    rw [readValue_le (by simpa using hp)]
  have hchecksum : readValue 8 (mmapFile magic payload) 32 =
      some (stableChecksum64 payload) := by
    refine (hbehind 8 (4 + (4 + (4 + (4 + (8 + 0)))))).trans ?_
    iterate 5 rw [readValue_behind (length_le ..)]
    rw [readValue_le (by simpa using stableChecksum64_lt payload)]
  have hlen : (mmapFile magic payload).length = kMMapFileHeaderSize + payload.length := by
    simp [mmapFile, kMMapFileHeaderSize, hm]
    omega
  have hdrop : (mmapFile magic payload).drop kMMapFileHeaderSize = payload := by
    have hfront : (magic ++ (le 4 kMMapIndexVersion ++ (le 4 kMMapFileHeaderSize ++
        (le 4 kMMapIndexEndianMarker ++ (le 4 0 ++ (le 8 payload.length ++
          le 8 (stableChecksum64 payload))))))).length = kMMapFileHeaderSize := by
      simp [hm, kMMapFileHeaderSize]
    have : (_ ++ payload).drop kMMapFileHeaderSize = payload := List.drop_left' hfront
    simp only [List.append_assoc] at this
    exact this
  have hmagic : startsWith (mmapFile magic payload) magic = true := startsWith_append ..
  unfold validateMMapFile
  simp [hversion, hheader, hendian, hsize, hchecksum, hlen, hdrop, hmagic]

theorem IndexFile.validate (file : IndexFile) {payload : Bytes} (hp : payload.length < 2 ^ 64) :
    validateMMapFile (mmapFile file.magic payload) file.magic = some payload :=
  validateMMapFile_mmapFile (by cases file <;> rfl) hp

/-! ## One posting list -/

section Lists

variable {S : Type} (single : SinglePrecision S)

def rounded (post : Posting S) : Posting S :=
  { documentId := post.documentId, collection := []
    score := single.ofFloat (single.toFloat post.score), positions := [] }

/-- The difference that stands for an id behind the hash `prev`. -/
def hashDelta (prev : Nat) (documentId : Bytes) : Nat :=
  if prev = 0 then stableHash32 documentId else (stableHash32 documentId + 2 ^ 32 - prev) % 2 ^ 32

theorem hashDelta_lt (prev : Nat) (documentId : Bytes) : hashDelta prev documentId < 2 ^ 32 := by
  unfold hashDelta
  split
  · exact stableHash32_lt _
  · exact Nat.mod_lt _ (by decide)

theorem add_hashDelta {prev : Nat} (hprev : prev < 2 ^ 32) (documentId : Bytes) :
    (if prev = 0 then hashDelta prev documentId
      else (prev + hashDelta prev documentId) % 2 ^ 32) = stableHash32 documentId := by
  have hhash := stableHash32_lt documentId
  unfold hashDelta
  by_cases h0 : prev = 0
  · rw [if_pos h0, if_pos h0]
  · rw [if_neg h0, if_neg h0]
    omega

theorem readVarint_writeVarint {value : Nat} (h : value < 2 ^ 32) (s : Bytes) :
    readVarint 0 0 (writeVarint value ++ s) = (value, s) := by
  have := readVarint_varint s (show value < 128 ^ (4 + 1) by omega) (show 0 < 2 ^ 0 by decide)
    (show 0 + value * 2 ^ 0 < 2 ^ 32 by omega) (by omega)
  simpa [writeVarint] using this

/-- One posting is read, whatever the hashes that writer and reader have before it. -/
theorem decodeEntries_writePosting {post : Posting S} (hid : post.documentId.length ≤ 0xffff)
    (docs written prev : Nat) (rest : Bytes) :
    decodeEntries single (docs + 1) prev (writePosting single written post ++ rest) =
      rounded single post :: decodeEntries single docs
        (if prev = 0 then hashDelta written post.documentId
          else (prev + hashDelta written post.documentId) % 2 ^ 32) rest := by
  have htext : writePosting single written post ++ rest =
      writeVarint (hashDelta written post.documentId) ++
        (le 4 (single.toFloat post.score).toNat ++ (le 2 post.documentId.length ++
          (post.documentId ++ rest))) := by
    simp only [writePosting, List.append_assoc]
    rfl
  have hscore := readLe_append (show (single.toFloat post.score).toNat < 256 ^ 4 by
    simpa using (single.toFloat post.score).toNat_lt)
    (le 2 post.documentId.length ++ (post.documentId ++ rest))
  have hidLen := readLe_append (show post.documentId.length < 256 ^ 2 by omega)
    (post.documentId ++ rest)
  rw [htext, decodeEntries, if_neg (by simp [writeVarint, varint_ne_nil]),
    readVarint_writeVarint (hashDelta_lt ..)]
  simp only [hscore, hidLen]
  simp [rounded]

/-- **The entries of a list are read back**, whatever the hash before them. -/
theorem decodeEntries_writeEntries : ∀ {posts : List (Posting S)} {prev : Nat}, prev < 2 ^ 32 →
      (∀ post ∈ posts, post.documentId.length ≤ 0xffff) →
      decodeEntries single posts.length prev (writeEntries single prev posts) =
        posts.map (rounded single)
  | [], _, _, _ => rfl
  | post :: posts, prev, hprev, hlen => by
    have ih := decodeEntries_writeEntries (stableHash32_lt post.documentId)
      fun p hp => hlen p (List.mem_cons_of_mem _ hp)
    rw [writeEntries, List.length_cons, decodeEntries_writePosting single (hlen post (by simp)),
      add_hashDelta hprev, ih, List.map_cons]

theorem length_le_writeEntries (prev : Nat) (posts : List (Posting S)) :
    posts.length ≤ (writeEntries single prev posts).length := by
  induction posts generalizing prev with
  | nil => simp
  | cons post posts ih =>
    have := ih (stableHash32 post.documentId)
    simp only [writeEntries, writePosting, List.length_append, List.length_cons, length_le]
    omega

/-- **A posting list is read back** in the order in which it is stored. -/
theorem decodePostings_writePostings (order : PostingSort S) {postings : List (Posting S)}
    (hne : postings ≠ []) (hid : ∀ post ∈ postings, post.documentId.length ≤ 0xffff)
    (hlen : (writePostings single order postings).length < 2 ^ 32) :
    decodePostings single (writePostings single order postings) =
      (order.sort postings).map (rounded single) := by
  have hperm := order.perm postings
  unfold writePostings at hlen ⊢
  rw [if_neg hne] at hlen ⊢
  have hcount : postings.length < 256 ^ 4 := by
    have := length_le_writeEntries single 0 (order.sort postings)
    rw [hperm.length_eq] at this
    simp only [List.length_append, length_le] at hlen
    omega
  have hent := decodeEntries_writeEntries single (show 0 < 2 ^ 32 by decide)
    fun post hp => hid post (hperm.mem_iff.mp hp)
  rw [hperm.length_eq] at hent
  unfold decodePostings
  rw [readLe_append hcount]
  exact hent

end Lists

/-! ## The order of the terms -/

/-- Within the shorter string the first difference decides the order; without one, the lengths
do. -/
theorem firstDifference_spec : ∀ a b : Bytes,
    match firstDifference a b with
    | some d => d ≠ 0 ∧ a ≠ b ∧ (d < 0 ↔ compare a b = .lt)
    | none => (a.length = b.length ↔ a = b) ∧ (a.length < b.length ↔ compare a b = .lt)
  | [], [] => by simp [firstDifference]
  | [], y :: b => by
    have : compare ([] : Bytes) (y :: b) = .lt := List.compareLex_nil_cons
    simp [firstDifference, this]
  | x :: a, [] => by
    have : compare (x :: a) ([] : Bytes) = .gt := List.compareLex_cons_nil
    simp [firstDifference, this]
  | x :: a, y :: b => by
    have ih := firstDifference_spec a b
    by_cases hxy : x = y
    · subst hxy
      have hcmp : compare (x :: a) (x :: b) = compare a b := compare_append_left [x] a b
      simp only [firstDifference, if_true, hcmp, List.length_cons, Nat.add_left_inj,
        Nat.add_lt_add_iff_right, List.cons.injEq, true_and, ne_eq]
      exact ih
    · have hne : x.toNat ≠ y.toNat := fun h => hxy (UInt8.toNat_inj.mp h)
      simp only [firstDifference, hxy, if_false, ne_eq, List.cons.injEq, false_and, not_false_iff,
        true_and]
      refine ⟨by omega, ?_⟩
      rcases Nat.lt_or_gt_of_ne hne with hlt | hgt
      · have := compare_cons_of_lt (UInt8.lt_iff_toNat_lt.mpr hlt) a b
        simp only [this, iff_true]
        omega
      · have := compare_cons_of_lt (UInt8.lt_iff_toNat_lt.mpr hgt) b a
        have hgt' : compare (x :: a) (y :: b) = .gt := Std.OrientedCmp.gt_of_lt this
        simp only [hgt', reduceCtorEq, iff_false]
        omega

theorem toInt_of_lt {n : Nat} (h : n < 2 ^ 31) : toInt n = n := by
  unfold toInt
  rw [Int.bmod_def]
  omega

/-- **The comparison decides the order of the terms**, for lengths that an `int` holds. -/
theorem fastStringCompare_spec {a b : Bytes} (ha : a.length < 2 ^ 31) (hb : b.length < 2 ^ 31) :
    (fastStringCompare a b = 0 ↔ a = b) ∧ (fastStringCompare a b < 0 ↔ compare a b = .lt) := by
  have h := firstDifference_spec a b
  unfold fastStringCompare
  cases hd : firstDifference a b with
  | some d =>
    simp only [hd] at h
    obtain ⟨h0, hne, hlt⟩ := h
    simp only [Option.getD_some, h0, false_iff]
    exact ⟨hne, hlt⟩
  | none =>
    simp only [hd] at h
    obtain ⟨heq, hlt⟩ := h
    rw [Option.getD_none, toInt_of_lt ha, toInt_of_lt hb, ← heq, ← hlt]
    omega

/-! ## The term map -/

structure TermRecord.Fits (r : TermRecord) : Prop where
  term : r.term.length ≤ 0xffff
  offset : r.postingsOffset < 2 ^ 64
  length : r.postingsLength < 2 ^ 32

theorem findTermLoop_mapEntry {r : TermRecord} (hr : r.term.length ≤ 0xffff) (term : Bytes)
    (terms : Nat) (rest : Bytes) :
    findTermLoop term (terms + 1) (r.mapEntry ++ rest) =
      if fastStringCompare term r.term = 0 then
        ⟨r.postingsOffset % 2 ^ 64, r.postingsLength % 2 ^ 32⟩
      else if fastStringCompare term r.term < 0 then ⟨0, 0⟩
      else findTermLoop term terms rest := by
  have htext : r.mapEntry ++ rest = le 2 r.term.length ++
      (r.term ++ (le 8 r.postingsOffset ++ (le 4 r.postingsLength ++ rest))) := by
    simp [TermRecord.mapEntry]
  have hlen := readLe_append (show r.term.length < 256 ^ 2 by omega)
    (r.term ++ (le 8 r.postingsOffset ++ (le 4 r.postingsLength ++ rest)))
  have hdrop : (le 8 r.postingsOffset ++ (le 4 r.postingsLength ++ rest)).drop 12 = rest := by
    rw [← List.append_assoc]
    exact List.drop_left' (by simp)
  rw [htext, findTermLoop]
  simp only [hlen]
  rw [if_neg (by simp; omega), List.take_left' rfl, List.drop_left' rfl,
    List.take_left' (length_le _ _), List.drop_left' (length_le _ _),
    List.take_left' (length_le _ _), leValue_le, leValue_le, hdrop]
  rfl

/-- **The scan of a sorted term map finds the record of a term**, and nothing for a term that has
none: it gives up only where all further terms are above. -/
theorem findTermLoop_mapEntries {term : Bytes} (hterm : term.length < 2 ^ 31) :
    ∀ {records : List TermRecord}, (∀ r ∈ records, r.Fits) →
      records.Pairwise (fun r r' => compare r.term r'.term = .lt) →
      findTermLoop term records.length (records.flatMap TermRecord.mapEntry) =
        ((records.find? fun r => r.term = term).map fun r =>
          ⟨r.postingsOffset, r.postingsLength⟩).getD ⟨0, 0⟩
  | [], _, _ => rfl
  | r :: records, hfit, hsort => by
    obtain ⟨hlt, hsort'⟩ := List.pairwise_cons.mp hsort
    have hr := hfit r (by simp)
    have ih := findTermLoop_mapEntries hterm (fun r hr => hfit r (List.mem_cons_of_mem _ hr)) hsort'
    obtain ⟨hzero, hneg⟩ := fastStringCompare_spec hterm
      (show r.term.length < 2 ^ 31 by have := hr.term; omega)
    rw [List.flatMap_cons, List.length_cons, findTermLoop_mapEntry hr.term,
      Nat.mod_eq_of_lt hr.offset, Nat.mod_eq_of_lt hr.length]
    by_cases heq : term = r.term
    · rw [if_pos (hzero.mpr heq), List.find?_cons_of_pos (by simp [heq])]
      rfl
    · rw [if_neg fun h => heq (hzero.mp h), List.find?_cons_of_neg (by simpa using Ne.symm heq)]
      by_cases hbelow : compare term r.term = .lt
      · -- everything that follows is above `r.term`, hence above `term`
        rw [if_pos (hneg.mpr hbelow)]
        have hnone : records.find? (fun r => r.term = term) = none := by
          rw [List.find?_eq_none]
          intro r' hr' he
          have habove := Std.TransCmp.lt_trans hbelow (hlt r' hr')
          rw [of_decide_eq_true he, Std.compare_self] at habove
          cases habove
        rw [hnone]
        rfl
      · rw [if_neg fun h => hbelow (hneg.mp h)]
        exact ih

/-! ## The records of an index -/

theorem termRecords_map_term (entries : List (Bytes × Bytes)) :
    ∀ t p, (termRecords t p entries).map TermRecord.term = entries.map Prod.fst := by
  induction entries with
  | nil => intro t p; rfl
  | cons entry entries ih => intro t p; simp [termRecords, ih]

theorem length_termRecords (entries : List (Bytes × Bytes)) (t p : Nat) :
    (termRecords t p entries).length = entries.length := by
  have := congrArg List.length (termRecords_map_term entries t p)
  simpa using this

structure EntriesFit (entries : List (Bytes × Bytes)) : Prop where
  count : entries.length < 2 ^ 32
  term : ∀ entry ∈ entries, entry.1.length ≤ 0xffff
  encoded : ∀ entry ∈ entries, entry.2.length < 2 ^ 32

theorem length_flatMap_le {α : Type} {f : α → Bytes} {bound : Nat} :
    ∀ {l : List α}, (∀ x ∈ l, (f x).length ≤ bound) → (l.flatMap f).length ≤ l.length * bound
  | [], _ => by simp
  | x :: l, h => by
    have hx := h x (by simp)
    have ih := length_flatMap_le fun y hy => h y (List.mem_cons_of_mem _ hy)
    rw [List.flatMap_cons, List.length_append, List.length_cons, Nat.succ_mul]
    omega

section Sizes

variable {entries : List (Bytes × Bytes)}

theorem EntriesFit.postingsBuffer_lt (h : EntriesFit entries) :
    (postingsBuffer entries).length < 2 ^ 64 := by
  have hle : (postingsBuffer entries).length ≤ entries.length * (2 ^ 32 - 1) :=
    length_flatMap_le fun entry he => by have := h.encoded entry he; omega
  have := h.count
  omega

theorem EntriesFit.termsBuffer_lt (h : EntriesFit entries) :
    (termsBuffer entries).length < 2 ^ 64 := by
  have hle : (termsBuffer entries).length ≤ entries.length * 0x10000 :=
    length_flatMap_le fun entry he => by
      have := h.term entry he
      simp only [List.length_append, List.length_cons, List.length_nil]
      omega
  have := h.count
  omega

theorem mem_termRecords {r : TermRecord} :
    ∀ {entries : List (Bytes × Bytes)} {t : Nat} (front : Bytes),
      r ∈ termRecords t front.length entries → ∃ entry ∈ entries, r.term = entry.1 ∧
        r.postingsLength = entry.2.length ∧
        r.postingsOffset + entry.2.length ≤ front.length + (postingsBuffer entries).length ∧
        ((front ++ postingsBuffer entries).drop r.postingsOffset).take r.postingsLength = entry.2
  | [], _, _, h => absurd h (by simp [termRecords])
  | (term, encoded) :: entries, t, front, h => by
    have hbuffer : postingsBuffer ((term, encoded) :: entries) =
        encoded ++ postingsBuffer entries := by
      simp [postingsBuffer]
    rw [termRecords, List.mem_cons] at h
    rw [hbuffer, List.length_append]
    rcases h with rfl | h
    · exact ⟨(term, encoded), by simp, rfl, rfl, by dsimp only; omega, by simp⟩
    rw [← List.length_append] at h
    obtain ⟨entry, he, ht, hl, ho, hs⟩ := mem_termRecords (front ++ encoded) h
    rw [List.length_append] at ho
    rw [List.append_assoc] at hs
    exact ⟨entry, List.mem_cons_of_mem _ he, ht, hl, by omega, hs⟩

theorem EntriesFit.records (h : EntriesFit entries) : ∀ r ∈ termRecords 0 0 entries, r.Fits := by
  intro r hr
  obtain ⟨entry, he, ht, hl, ho, -⟩ := mem_termRecords [] hr
  have hbuffer := h.postingsBuffer_lt
  rw [List.length_nil] at ho
  exact ⟨by rw [ht]; exact h.term entry he, by omega, by rw [hl]; exact h.encoded entry he⟩

theorem EntriesFit.termMapBuffer_lt (h : EntriesFit entries) :
    (termMapBuffer entries).length < 2 ^ 64 := by
  have hle : ((termRecords 0 0 entries).flatMap TermRecord.mapEntry).length ≤
      (termRecords 0 0 entries).length * 0x20000 :=
    length_flatMap_le fun r hr => by
      have := (h.records r hr).term
      simp only [TermRecord.mapEntry, List.length_append, length_le]
      omega
  rw [length_termRecords] at hle
  have := h.count
  simp only [termMapBuffer, List.length_append, length_le]
  omega

theorem EntriesFit.termIndexBuffer_lt (h : EntriesFit entries) :
    (termIndexBuffer entries).length < 2 ^ 64 := by
  have hle : ((sampled (termRecords 0 0 entries)).flatMap TermRecord.indexEntry).length ≤
      (sampled (termRecords 0 0 entries)).length * 24 :=
    length_flatMap_le fun r _ => by
      simp only [TermRecord.indexEntry, List.length_append, length_le]
      omega
  have hsampled : (sampled (termRecords 0 0 entries)).length ≤ entries.length := by
    unfold sampled
    rw [List.length_map, ← length_termRecords entries 0 0]
    exact (List.length_filter_le _ _).trans (by simp)
  have := h.count
  simp only [termIndexBuffer, List.length_append, length_le]
  omega

end Sizes

/-! ## The files -/

theorem writeMMapFile_ok {disk : IndexFile → WriteResult} {directory : Directory}
    {file : IndexFile} {payload : Bytes}
    (h : (writeMMapFile disk directory file payload).2 = true) :
    (writeMMapFile disk directory file payload).1 =
      Function.update directory file (some (mmapFile file.magic payload)) := by
  unfold writeMMapFile at h ⊢
  cases hd : disk file with
  | written => rfl
  | failed left => rw [hd] at h; cases h

/-- After a success every file that was written holds its payload, and no other has changed. -/
theorem writeFiles_ok {disk : IndexFile → WriteResult} :
    ∀ {files : List (IndexFile × Bytes)} {directory : Directory}, (files.map Prod.fst).Nodup →
      (writeFiles disk files directory).2 = true →
      (∀ file payload, (file, payload) ∈ files →
        (writeFiles disk files directory).1 file = some (mmapFile file.magic payload)) ∧
      ∀ file, file ∉ files.map Prod.fst → (writeFiles disk files directory).1 file = directory file
  | [], _, _, _ => ⟨fun _ _ h => absurd h (by simp), fun _ _ => rfl⟩
  | (file, payload) :: files, directory, hnd, h => by
    rw [List.map_cons, List.nodup_cons] at hnd
    rw [writeFiles] at h ⊢
    cases hw : writeMMapFile disk directory file payload with
    | mk directory' ok =>
      cases ok with
      | false => rw [hw] at h; cases h
      | true =>
        simp only [hw] at h ⊢
        have hd : directory' = _ := (congrArg Prod.fst hw).symm.trans
          (writeMMapFile_ok (congrArg Prod.snd hw))
        obtain ⟨hin, hout⟩ := writeFiles_ok hnd.2 h
        constructor
        · intro f p hm
          rcases List.mem_cons.mp hm with he | hm
          · obtain ⟨rfl, rfl⟩ := Prod.mk.inj he
            rw [hout f hnd.1, hd, Function.update_self]
          · exact hin f p hm
        · intro f hf
          rw [List.map_cons, List.mem_cons, not_or] at hf
          rw [hout f hf.2, hd, Function.update_of_ne hf.1]

section Written

variable {S : Type} {single : SinglePrecision S} {order : PostingSort S}
  {disk : IndexFile → WriteResult} {collection : Bytes}
  {indexData : ByteMap (ByteMap (List (Posting S)))} {directory : Directory}

/-- What a reported success means for the directory. -/
theorem writeIndex_ok (h : (writeIndex single order disk collection indexData directory).2 = true) :
    ∃ terms, indexData[collection]? = some terms ∧ lengthsFit terms = true ∧
      ∀ file payload, (file, payload) ∈ indexFiles (encodedTerms single order terms) →
        (writeIndex single order disk collection indexData directory).1 file =
          some (mmapFile file.magic payload) := by
  unfold writeIndex at h ⊢
  cases hterms : indexData[collection]? with
  | none => rw [hterms] at h; cases h
  | some terms =>
    simp only [hterms] at h ⊢
    by_cases hfit : lengthsFit terms = true
    · rw [if_pos hfit] at h ⊢
      exact ⟨terms, rfl, hfit, (writeFiles_ok (by simp [indexFiles]) h).1⟩
    · rw [if_neg hfit] at h
      cases h

variable {entries : List (Bytes × Bytes)} {terms : ByteMap (List (Posting S))}

/-- **A directory with the files of an index is loaded**, with their payloads, unless they are too
long for a file. -/
theorem loadIndex_indexFiles
    (hfit : ∀ file payload, (file, payload) ∈ indexFiles entries → payload.length < 2 ^ 64)
    {directory : Directory}
    (hdir : ∀ file payload, (file, payload) ∈ indexFiles entries →
      directory file = some (mmapFile file.magic payload)) :
    ∃ index, loadIndex directory = some index ∧ index.termMapData = termMapBuffer entries ∧
      index.postingsData = postingsBuffer entries ∧ index.termsData = termsBuffer entries ∧
      index.termCount = entries.length % 2 ^ 32 := by
  have mterms : (IndexFile.terms, termsBuffer entries) ∈ indexFiles entries := by simp [indexFiles]
  have mpostings : (IndexFile.postings, postingsBuffer entries) ∈ indexFiles entries := by
    simp [indexFiles]
  have mtermMap : (IndexFile.termMap, termMapBuffer entries) ∈ indexFiles entries := by
    simp [indexFiles]
  have mtermIndex : (IndexFile.termIndex, termIndexBuffer entries) ∈ indexFiles entries := by
    simp [indexFiles]
  have hterms := hdir _ _ mterms
  have hpostings := hdir _ _ mpostings
  have htermMap := hdir _ _ mtermMap
  have htermIndex := hdir _ _ mtermIndex
  have vterms := IndexFile.validate .terms (hfit _ _ mterms)
  have vpostings := IndexFile.validate .postings (hfit _ _ mpostings)
  have vtermMap := IndexFile.validate .termMap (hfit _ _ mtermMap)
  have vtermIndex := IndexFile.validate .termIndex (hfit _ _ mtermIndex)
  have hmapLen : 4 ≤ (termMapBuffer entries).length := by simp [termMapBuffer]
  have hindexLen : 8 ≤ (termIndexBuffer entries).length := by simp [termIndexBuffer]; omega
  have hindex : loadTermIndex directory = some (some (termIndexBuffer entries),
      leValue (((termIndexBuffer entries).drop 4).take 4)) := by
    simp [loadTermIndex, htermIndex, vtermIndex, hindexLen]
  have hcount : leValue ((termMapBuffer entries).take 4) = entries.length % 2 ^ 32 := by
    rw [termMapBuffer, List.take_left' (length_le _ _), leValue_le,
      show (256 : Nat) ^ 4 = 2 ^ 32 from rfl]
  refine ⟨_, by
    unfold loadIndex
    simp only [hterms, hpostings, htermMap, vterms, vpostings, vtermMap, hindex, hmapLen,
      guard_true, Option.bind_eq_bind, Option.bind_some, Option.pure_def, htermIndex]
    rfl, rfl, rfl, rfl, hcount⟩

theorem EntriesFit.files (h : EntriesFit entries) :
    ∀ file payload, (file, payload) ∈ indexFiles entries → payload.length < 2 ^ 64 := by
  intro file payload hmem
  simp only [indexFiles, List.mem_cons, Prod.mk.injEq, List.not_mem_nil, or_false] at hmem
  rcases hmem with ⟨-, rfl⟩ | ⟨-, rfl⟩ | ⟨-, rfl⟩ | ⟨-, rfl⟩
  · exact h.termsBuffer_lt
  · exact h.postingsBuffer_lt
  · exact h.termMapBuffer_lt
  · exact h.termIndexBuffer_lt

theorem lengths_of_lengthsFit (hfit : lengthsFit terms = true) {term : Bytes}
    {postings : List (Posting S)} (hget : terms[term]? = some postings) :
    term.length ≤ 0xffff ∧ ∀ post ∈ postings, post.documentId.length ≤ 0xffff := by
  have := List.all_eq_true.mp hfit (term, postings)
    (Std.ExtTreeMap.mem_toList_iff_getElem?_eq_some.mpr hget)
  simpa only [Bool.and_eq_true, List.all_eq_true, decide_eq_true_eq] using this

theorem entriesFit_encodedTerms (hfit : lengthsFit terms = true) (hcount : terms.size < 2 ^ 32)
    (hlen : ∀ (term : Bytes) (postings : List (Posting S)), terms[term]? = some postings →
      (writePostings single order postings).length < 2 ^ 32) :
    EntriesFit (encodedTerms single order terms) := by
  refine ⟨?_, ?_, ?_⟩
  · rw [encodedTerms, List.length_map, Std.ExtTreeMap.length_toList]
    exact hcount
  · intro entry he
    obtain ⟨kv, hkv, rfl⟩ := List.mem_map.mp he
    exact (lengths_of_lengthsFit hfit (Std.ExtTreeMap.mem_toList_iff_getElem?_eq_some.mp hkv)).1
  · intro entry he
    obtain ⟨kv, hkv, rfl⟩ := List.mem_map.mp he
    exact hlen kv.1 kv.2 (Std.ExtTreeMap.mem_toList_iff_getElem?_eq_some.mp hkv)

theorem termRecords_sorted (single : SinglePrecision S) (order : PostingSort S)
    (terms : ByteMap (List (Posting S))) :
    (termRecords 0 0 (encodedTerms single order terms)).Pairwise
      (fun r r' => compare r.term r'.term = .lt) := by
  have hkeys : (termRecords 0 0 (encodedTerms single order terms)).map TermRecord.term =
      terms.toList.map Prod.fst := by
    rw [termRecords_map_term, encodedTerms, List.map_map]
    rfl
  have hsort : (terms.toList.map Prod.fst).Pairwise (fun a b => compare a b = .lt) :=
    List.pairwise_map.mpr Std.ExtTreeMap.ordered_keys_toList
  rw [← hkeys] at hsort
  exact List.pairwise_map.mp hsort

theorem findTerm_termMapBuffer {index : MMapIndex} (hfit : EntriesFit entries)
    (hsort : (termRecords 0 0 entries).Pairwise fun r r' => compare r.term r'.term = .lt)
    (hmap : index.termMapData = termMapBuffer entries) (hcount : index.termCount = entries.length)
    {term : Bytes} (hempty : term ≠ []) (hshort : term.length < 2 ^ 31) :
    index.findTerm term = (((termRecords 0 0 entries).find? fun r => r.term = term).map fun r =>
      ⟨r.postingsOffset, r.postingsLength⟩).getD ⟨0, 0⟩ := by
  have hloop := findTermLoop_mapEntries hshort hfit.records hsort
  rw [length_termRecords] at hloop
  unfold MMapIndex.findTerm
  rw [if_neg hempty, hmap, hcount]
  by_cases hlen : 4 < (termMapBuffer entries).length
  · rw [if_pos hlen]
    have hdrop : (termMapBuffer entries).drop 4 =
        (termRecords 0 0 entries).flatMap TermRecord.mapEntry :=
      List.drop_left' (length_le _ _)
    rw [hdrop, hloop]
  · -- only an index without terms has so short a term map
    have hnil : entries = [] := by
      cases entries with
      | nil => rfl
      | cons entry entries =>
        simp [termMapBuffer, termRecords, TermRecord.mapEntry] at hlen
    rw [if_neg hlen, hnil]
    rfl

/-- A directory with the files of an index answers like the map they were written from. -/
theorem searchTerm_indexFiles (hfit : lengthsFit terms = true) (hcount : terms.size < 2 ^ 32)
    (hlen : ∀ (term : Bytes) (postings : List (Posting S)), terms[term]? = some postings →
      (writePostings single order postings).length < 2 ^ 32)
    (hdir : ∀ file payload, (file, payload) ∈ indexFiles (encodedTerms single order terms) →
      directory file = some (mmapFile file.magic payload)) :
    ∃ index, loadIndex directory = some index ∧
      ∀ term, term.length < 2 ^ 31 → index.searchTerm single term =
        if term = [] then []
        else (order.sort (terms[term]?.getD [])).map (rounded single) := by
  have hentries : EntriesFit (encodedTerms single order terms) :=
    entriesFit_encodedTerms hfit hcount hlen
  obtain ⟨index, hload, hmap, hpost, -, hterm⟩ := loadIndex_indexFiles hentries.files hdir
  rw [Nat.mod_eq_of_lt hentries.count] at hterm
  refine ⟨index, hload, fun term hshort => ?_⟩
  by_cases hempty : term = []
  · simp [MMapIndex.searchTerm, MMapIndex.findTerm, hempty]
  have hfind := findTerm_termMapBuffer hentries (termRecords_sorted single order terms) hmap hterm
    hempty hshort
  rw [if_neg hempty]
  unfold MMapIndex.searchTerm
  cases hrecord : (termRecords 0 0 (encodedTerms single order terms)).find? fun r => r.term = term with
  | none =>
    -- a term of the map would have a record
    have hget : terms[term]? = none := by
      cases hget : terms[term]? with
      | none => rfl
      | some postings =>
        have hmem : term ∈ (termRecords 0 0 (encodedTerms single order terms)).map
            TermRecord.term := by
          rw [termRecords_map_term, encodedTerms, List.map_map]
          exact List.mem_map.mpr ⟨(term, postings),
            Std.ExtTreeMap.mem_toList_iff_getElem?_eq_some.mpr hget, rfl⟩
        obtain ⟨r, hr, rfl⟩ := List.mem_map.mp hmem
        exact absurd (List.find?_eq_none.mp hrecord r hr) (by simp)
    rw [hrecord] at hfind
    simp [hfind, hget, (order.perm []).eq_nil]
  | some r =>
    have hname : r.term = term := by simpa using List.find?_some hrecord
    obtain ⟨entry, he, ht, hlength, hbound, hslice⟩ :=
      mem_termRecords [] (List.mem_of_find?_eq_some hrecord)
    obtain ⟨⟨key, postings⟩, hkv, rfl⟩ := List.mem_map.mp he
    obtain rfl : key = term := ht.symm.trans hname
    have hget := Std.ExtTreeMap.mem_toList_iff_getElem?_eq_some.mp hkv
    rw [hlength, List.nil_append] at hslice
    replace hbound : r.postingsOffset + (writePostings single order postings).length ≤ _ := hbound
    rw [List.length_nil, Nat.zero_add] at hbound
    rw [hrecord] at hfind
    simp only [hfind, Option.map_some, Option.getD_some, hpost, hlength, hslice, hget]
    by_cases hnil : postings = []
    · subst hnil
      simp [writePostings, (order.perm []).eq_nil]
    · rw [if_neg (by simp [writePostings, hnil]), if_neg (by omega)]
      exact decodePostings_writePostings single order hnil (lengths_of_lengthsFit hfit hget).2
        (hlen key postings hget)

/-- **The written files answer like the map they were written from.** After a success of
`WriteIndex` the files can be loaded, and a search for a term gives its postings, in the order of
their hashes and with the scores in single precision, and nothing for a term that was not written.
The empty term is not looked up. -/
theorem searchTerm_writeIndex {terms : ByteMap (List (Posting S))}
    (hterms : indexData[collection]? = some terms)
    (hok : (writeIndex single order disk collection indexData directory).2 = true)
    (hcount : terms.size < 2 ^ 32)
    (hlen : ∀ (term : Bytes) (postings : List (Posting S)), terms[term]? = some postings →
      (writePostings single order postings).length < 2 ^ 32) :
    ∃ index, loadIndex (writeIndex single order disk collection indexData directory).1 =
        some index ∧
      ∀ term, term.length < 2 ^ 31 → index.searchTerm single term =
        if term = [] then []
        else (order.sort (terms[term]?.getD [])).map (rounded single) := by
  obtain ⟨terms', hterms', hfit, hdir⟩ := writeIndex_ok hok
  obtain rfl : terms = terms' := Option.some.inj (hterms.symm.trans hterms')
  exact searchTerm_indexFiles hfit hcount hlen hdir

end Written

/-! ### Two terms, one of them empty -/

abbrev hashOrder {S : Type} : Posting S → Posting S → Ordering :=
  compareLex (compareOn fun p => stableHash32 p.documentId) (compareOn Posting.documentId)

theorem hashLess_eq_false {S : Type} (a b : Posting S) :
    hashLess b a = false ↔ (hashOrder a b).isLE = true := by
  unfold hashLess hashOrder compareLex compareOn
  rcases Nat.lt_trichotomy (stableHash32 a.documentId) (stableHash32 b.documentId) with h | h | h
  · rw [if_neg (by omega), Nat.compare_eq_lt.mpr h]
    simp [Nat.le_of_lt h]
  · have hswap : compare b.documentId a.documentId =
        (compare a.documentId b.documentId).swap := Std.OrientedCmp.eq_swap
    rw [if_pos h.symm, Nat.compare_eq_eq.mpr h, hswap]
    cases compare a.documentId b.documentId <;> decide
  · rw [if_neg (by omega), Nat.compare_eq_gt.mpr h]
    simp [h]

/-- The order of the postings is a total preorder, so there is a sort for it. -/
def insertionOrder (S : Type) : PostingSort S :=
  have htotal : ∀ a b : Posting S, hashLess b a = false ∨ hashLess a b = false := by
    intro a b
    have hswap : hashOrder b a = (hashOrder a b).swap := Std.OrientedCmp.eq_swap
    rw [hashLess_eq_false, hashLess_eq_false, hswap]
    cases hashOrder a b <;> decide
  have htrans : ∀ a b c : Posting S, hashLess b a = false → hashLess c b = false →
      hashLess c a = false := by
    intro a b c
    simp only [hashLess_eq_false]
    exact Std.TransCmp.isLE_trans
  { sort := List.insertionSort fun a b => hashLess b a = false
    perm := fun postings => List.perm_insertionSort _ postings
    sorted := fun postings =>
      haveI : Std.Total fun a b : Posting S => hashLess b a = false := ⟨htotal⟩
      haveI : IsTrans (Posting S) fun a b => hashLess b a = false := ⟨htrans⟩
      List.pairwise_insertionSort _ postings }

def bitScores : SinglePrecision Nat where
  toFloat := UInt32.ofNat
  ofFloat := UInt32.toNat

/-- A collection with a posting under the empty term and two under `a`. -/
def twoTerms : ByteMap (List (Posting Nat)) :=
  ((∅ : ByteMap (List (Posting Nat))).insert [] [⟨lit "d", lit "c", 1, [0]⟩]).insert (lit "a")
    [⟨lit "d", lit "c", 1, [0]⟩, ⟨lit "e", lit "c", 2, []⟩]

/-- What `WriteIndex` makes of it, on a disk that takes every file. -/
def writeTwoTerms : Directory × Bool :=
  writeIndex bitScores (insertionOrder Nat) (fun _ => .written) (lit "c")
    ((∅ : ByteMap (ByteMap (List (Posting Nat)))).insert (lit "c") twoTerms) fun _ => none

/-- The postings of the empty term are written, and the search for it does not return them. -/
theorem empty_term_not_found : writeTwoTerms.2 = true ∧ (∀ term ∈ twoTerms.keys,
      (writePostings bitScores (insertionOrder Nat) (twoTerms[term]?.getD [])).length < 2 ^ 32) ∧
    (twoTerms[([] : Bytes)]?.getD []).map (rounded bitScores) = [⟨lit "d", [], 1, []⟩] ∧
    (loadIndex writeTwoTerms.1).map (fun index => index.searchTerm bitScores []) =
      some ([] : List (Posting Nat)) := by
  decide +kernel

theorem searchTerm_writeIndex_twoTerms : ∃ index, loadIndex writeTwoTerms.1 = some index ∧
    ∀ term, term.length < 2 ^ 31 → index.searchTerm bitScores term =
      if term = [] then []
      else ((insertionOrder Nat).sort (twoTerms[term]?.getD [])).map (rounded bitScores) := by
  have hlen : ∀ (term : Bytes) (postings : List (Posting Nat)), twoTerms[term]? = some postings →
      (writePostings bitScores (insertionOrder Nat) postings).length < 2 ^ 32 := by
    refine ByteMap.forall_insert (ByteMap.forall_insert (fun _ _ h => nomatch h) ?_) ?_
    all_goals decide +kernel
  exact searchTerm_writeIndex (by rw [ByteMap.get_insert, if_pos rfl]) (by decide +kernel)
    (by decide +kernel) hlen

end Hlquery.Index
