import Hlquery.Replication.Replica

/-!
# A forwarded request at the peer

The path of a request is percent-decoded when it arrives. A node that forwards the request writes
the decoded path as it is, and the peer takes it apart again: the request line ends at a line feed,
its words at blanks, the path at a question mark, and what is left is decoded once more. The query
parameters, in the same function, are encoded.

`forwarded_readBack_iff` says for which paths the peer reads the request that was sent. The words of
a line are what decides it, so the file begins with them.
-/

set_option autoImplicit false

namespace Hlquery.Replication

open Bytes Http

/-! ## The words of a line -/

def wordsOf (line : Bytes) : List Bytes := (line.splitOnP isSpace).filter (· ≠ [])

theorem wordsOf_append (s t : Bytes) {c : UInt8} (hc : isSpace c = true) :
    wordsOf (s ++ c :: t) = wordsOf s ++ wordsOf t := by
  unfold wordsOf
  rw [List.splitOnP_append_cons s t hc, List.filter_append]

variable {s : Bytes} {lines : List Bytes}

theorem wordsOf_noSpace (h : NoSpace s) (hne : s ≠ []) : wordsOf s = [s] := by
  unfold wordsOf
  rw [List.splitOnP_eq_singleton h]
  simp [hne]

theorem wordsOf_blank (h : ∀ b ∈ s, isSpace b = true) : wordsOf s = [] := by
  induction s with
  | nil => rfl
  | cons c s ih =>
    obtain ⟨hc, hs⟩ := List.forall_mem_cons.mp h
    rw [← List.nil_append (c :: s), wordsOf_append [] s hc, ih hs]
    rfl

theorem wordsOf_blank_append (h : ∀ b ∈ s, isSpace b = true) (t : Bytes) :
    wordsOf (s ++ t) = wordsOf t := by
  induction s with
  | nil => rfl
  | cons c s ih =>
    obtain ⟨hc, hs⟩ := List.forall_mem_cons.mp h
    rw [List.cons_append, ← List.nil_append (c :: (s ++ t)), wordsOf_append [] _ hc, ih hs]
    rfl

def queryText (params : ByteMap Bytes) : Bytes :=
  if queryString params = [] then [] else chr '?' :: queryString params

theorem writtenPath_eq (r : Outgoing) :
    writtenPath r = (if r.path = [] then lit "/" else r.path) ++ queryText r.queryParams := by
  unfold writtenPath queryText
  simp only
  split
  · simp
  · simp [show lit "?" = [chr '?'] from rfl]

theorem noSpace_queryText (params : ByteMap Bytes) : NoSpace (queryText params) := by
  unfold queryText
  split
  · exact fun _ h => absurd h List.not_mem_nil
  intro b hb
  rcases List.mem_cons.mp hb with rfl | hb
  · decide
  · exact noSpace_queryString _ b hb

/-- The path that is read ends before the query at the latest. -/
theorem takeWhile_queryText (params : ByteMap Bytes) (s : Bytes) :
    (s ++ queryText params).takeWhile (· != chr '?') = s.takeWhile (· != chr '?') := by
  unfold queryText
  split
  · simp
  induction s with
  | nil => simp
  | cons b s ih => simp only [List.cons_append, List.takeWhile_cons, ih]

theorem length_urlDecode_le : ∀ s : Bytes, (urlDecode s).length ≤ s.length
  | [] => Nat.le_refl _
  | [_] => Nat.le_refl _
  | [_, _] => Nat.le_refl _
  | b :: x :: y :: rest => by
    unfold urlDecode
    split
    · have := length_urlDecode_le rest
      simp only [List.length_cons]
      omega
    · have := length_urlDecode_le (x :: y :: rest)
      simp only [List.length_cons] at this ⊢
      omega

/-! ## The request line that is read -/

/-- A request that is forwarded. Its method was read as a word, its path is whatever decoding has
given, and its body is a string. -/
structure Forwarded extends Outgoing where
  method_noSpace : NoSpace method
  method_ne_nil : method ≠ []
  body_size : body.length < 2 ^ 64

/-- The words of the first line of a text: what the parser reads its request line from. -/
def firstWords (raw : Bytes) : List Bytes := wordsOf (raw.takeWhile (· ≠ chr '\n'))

theorem wordsOf_chopReturn (line : Bytes) : wordsOf (chopReturn line) = wordsOf line := by
  unfold chopReturn
  split
  · rename_i hlast
    have hne : line ≠ [] := by
      intro e
      rw [e] at hlast
      cases hlast
    have hsplit : line = line.dropLast ++ [chr '\r'] := by
      rw [List.getLast?_eq_some_getLast hne] at hlast
      rw [← Option.some.inj hlast, List.dropLast_append_getLast hne]
    conv_rhs => rw [hsplit, wordsOf_append _ _ (by decide)]
    simp [wordsOf_blank]
  · rfl

theorem takeWhile_newline_append {line : Bytes} (h : chr '\n' ∉ line) (rest : Bytes) :
    (line ++ chr '\n' :: rest).takeWhile (· ≠ chr '\n') = line := by
  rw [List.takeWhile_append_of_pos]
  · simp
  intro b hb
  have : b ≠ chr '\n' := fun e => h (e ▸ hb)
  simpa using this

theorem requestLine_of_findHead {raw head rest : Bytes} (h : findHead raw = some (head, rest)) :
    requestLine head = firstWords raw := by
  obtain ⟨before, hends⟩ : ∃ before, head = before ++ [chr '\n'] := by
    obtain ⟨⟨l, r⟩, -, he⟩ := Option.map_eq_some_iff.mp h
    exact ⟨l ++ [chr '\r', chr '\n', chr '\r'], by rw [← (Prod.mk.inj he).1]; simp; rfl⟩
  have hmem : chr '\n' ∈ head := by
    rw [hends]
    simp
  obtain ⟨line, tail, hhead, hline⟩ : ∃ line tail, head = line ++ chr '\n' :: tail ∧
      chr '\n' ∉ line := List.eq_append_cons_of_mem hmem
  unfold requestLine firstWords
  rw [findHead_eq_some h, hhead, getlines_line hline, List.headD_cons, List.append_assoc,
    List.cons_append, takeWhile_newline_append hline]
  exact wordsOf_chopReturn line

/-! ## Paths with blanks -/

/-- What stands behind the path and the query in the request line, and behind the line. -/
def lineTail (rest : Bytes) : Bytes := lit " HTTP/1.1\r\n" ++ rest

theorem takeWhile_newline_of_noSpace (h : NoSpace s) (t : Bytes) :
    (s ++ t).takeWhile (· ≠ chr '\n') = s ++ t.takeWhile (· ≠ chr '\n') := by
  refine List.takeWhile_append_of_pos ?_
  intro b hb
  have hne : b ≠ chr '\n' := by
    intro e
    exact h.oneLine.newline_not_mem (e ▸ hb)
  simpa using hne

theorem takeWhile_lineTail (rest : Bytes) :
    (lineTail rest).takeWhile (· ≠ chr '\n') = chr ' ' :: lit "HTTP/1.1\r" := by
  have hsplit : lineTail rest = (chr ' ' :: lit "HTTP/1.1\r") ++ chr '\n' :: rest := by
    simp [lineTail, show lit " HTTP/1.1\r\n" = (chr ' ' :: lit "HTTP/1.1\r") ++ [chr '\n'] from rfl]
  rw [hsplit]
  exact takeWhile_newline_append (by decide) rest

theorem wordsOf_version : wordsOf (lit "HTTP/1.1\r") = [lit "HTTP/1.1"] := by decide

theorem firstWords_lineTail (h : NoSpace s) (rest : Bytes) :
    firstWords (s ++ lineTail rest) = wordsOf s ++ [lit "HTTP/1.1"] := by
  unfold firstWords
  rw [takeWhile_newline_of_noSpace h, takeWhile_lineTail, wordsOf_append _ _ (by decide),
    wordsOf_version]

theorem exists_first_space (h : ¬ NoSpace s) :
    ∃ A c B, s = A ++ c :: B ∧ isSpace c = true ∧ NoSpace A := by
  induction s with
  | nil => exact absurd (fun _ h => absurd h List.not_mem_nil) h
  | cons b s ih =>
    cases hb : isSpace b with
    | true => exact ⟨[], b, s, rfl, hb, fun _ h => absurd h List.not_mem_nil⟩
    | false =>
      obtain ⟨A, c, B, rfl, hc, hA⟩ := ih fun hs => h (List.forall_mem_cons.mpr ⟨hb, hs⟩)
      exact ⟨b :: A, c, B, rfl, hc, List.forall_mem_cons.mpr ⟨hb, hA⟩⟩

/-- **A path with a blank in it is not read**: the word that is taken for it is shorter, or there are
too few words. -/
theorem ne_of_blank {path query rest word version : Bytes} {words : List Bytes}
    (hblank : ¬ NoSpace path) (hquery : NoSpace query)
    (hread : ∀ s : Bytes, (s ++ query).takeWhile (· != chr '?') = s.takeWhile (· != chr '?'))
    (hwords : firstWords (path ++ (query ++ lineTail rest)) = word :: version :: words) :
    urlDecode (word.takeWhile (· != chr '?')) ≠ path := by
  intro heq
  have hlen : path.length ≤ (word.takeWhile (· != chr '?')).length :=
    heq ▸ length_urlDecode_le _
  obtain ⟨S, R, hpath, hS, hR⟩ : ∃ S R, path = S ++ R ∧ (∀ b ∈ S, isSpace b = true) ∧
      ∀ b R', R = b :: R' → isSpace b = false := by
    refine ⟨path.takeWhile isSpace, path.dropWhile isSpace, List.takeWhile_append_dropWhile.symm,
      fun b hb => List.mem_takeWhile_imp hb, ?_⟩
    intro b R' hb
    have := List.head?_dropWhile_not isSpace path
    rw [hb] at this
    simpa using this
  by_cases hnl : chr '\n' ∈ S
  · -- The line ends among the leading blanks.
    obtain ⟨line, tail, rfl, hline⟩ := List.eq_append_cons_of_mem hnl
    have hfirst : firstWords (path ++ (query ++ lineTail rest)) = [] := by
      unfold firstWords
      rw [hpath, List.append_assoc, List.append_assoc, List.cons_append,
        takeWhile_newline_append hline]
      exact wordsOf_blank fun b hb => hS b (List.mem_append_left _ hb)
    rw [hfirst] at hwords
    cases hwords
  · have hskip : ∀ t : Bytes, firstWords (S ++ t) = firstWords t := by
      intro t
      unfold firstWords
      rw [List.takeWhile_append_of_pos, wordsOf_blank_append hS]
      intro b hb
      have hne : b ≠ chr '\n' := fun e => hnl (e ▸ hb)
      simpa using hne
    rw [hpath, List.append_assoc, hskip] at hwords
    have hpathLen : path.length = S.length + R.length := by rw [hpath, List.length_append]
    by_cases hRspace : NoSpace R
    · have hS0 : S ≠ [] := by
        intro e
        rw [e, List.nil_append] at hpath
        exact hblank (hpath ▸ hRspace)
      rw [← List.append_assoc, firstWords_lineTail (hRspace.append hquery)] at hwords
      by_cases hne : R ++ query = []
      · rw [hne] at hwords
        simp [wordsOf_blank] at hwords
      · rw [wordsOf_noSpace (hRspace.append hquery) hne] at hwords
        obtain ⟨rfl, -⟩ := List.cons.inj hwords
        rw [hread] at hlen
        have := (List.takeWhile_prefix (l := R) (· != chr '?')).length_le
        have := List.length_pos_of_ne_nil hS0
        omega
    · -- The first word of what follows ends within the path.
      obtain ⟨A, c, B, rfl, hc, hA⟩ := exists_first_space hRspace
      have hA0 : A ≠ [] := by
        intro e
        rw [e, List.nil_append] at hR
        rw [hR c B rfl] at hc
        cases hc
      have hword : word = A := by
        unfold firstWords at hwords
        rw [List.append_assoc, takeWhile_newline_of_noSpace hA] at hwords
        by_cases hcn : c = chr '\n'
        · rw [hcn] at hwords
          rw [List.cons_append, List.takeWhile_cons_of_neg (by simp), List.append_nil,
            wordsOf_noSpace hA hA0] at hwords
          cases hwords
        · rw [List.cons_append, List.takeWhile_cons_of_pos (by simpa using hcn),
            wordsOf_append _ _ hc, wordsOf_noSpace hA hA0] at hwords
          exact (List.cons.inj hwords).1.symm
      rw [hword] at hlen
      have := (List.takeWhile_prefix (l := A) (· != chr '?')).length_le
      rw [List.length_append, List.length_cons] at hpathLen
      omega

/-! ## The head that is read -/

theorem splitOn_joinLines (h : ∀ l ∈ lines, OneLine l) (rest : Bytes) :
    (joinLines lines ++ rest).splitOn (chr '\n')
      = lines.map (· ++ [chr '\r']) ++ rest.splitOn (chr '\n') := by
  induction lines with
  | nil => rfl
  | cons line lines ih =>
    obtain ⟨hline, hlines⟩ := List.forall_mem_cons.mp h
    have hnot : chr '\n' ∉ line ++ [chr '\r'] := by
      intro hm
      rcases List.mem_append.mp hm with hm | hm
      · exact hline.newline_not_mem hm
      · exact absurd (List.mem_singleton.mp hm) (by decide)
    have hsplit : joinLines (line :: lines) ++ rest
        = (line ++ [chr '\r']) ++ chr '\n' :: (joinLines lines ++ rest) := by
      simp [joinLines, show lineBreak = [chr '\r', chr '\n'] from rfl]
    rw [hsplit, List.splitOn_append_cons_self, List.splitOn_eq_singleton hnot, ih hlines]
    rfl

/-- Lines that are not empty have no empty line among them. -/
theorem contains_joinLines (h : ∀ l ∈ lines, OneLine l) (hne : ∀ l ∈ lines, l ≠ []) :
    contains (joinLines lines ++ [chr '\r']) headerEnd = false := by
  rw [Bool.eq_false_iff]
  intro hc
  obtain ⟨before, after, he⟩ := contains_iff.mp hc
  have hpieces := congrArg (List.splitOn (chr '\n')) he
  have hleft : before ++ headerEnd ++ after
      = (before ++ [chr '\r']) ++ chr '\n' :: ([chr '\r'] ++ chr '\n' :: after) := by
    simp [show headerEnd = [chr '\r', chr '\n', chr '\r', chr '\n'] from rfl]
  rw [hleft, List.splitOn_append_cons_self, List.splitOn_append_cons_self, splitOn_joinLines h,
    show [chr '\r'].splitOn (chr '\n') = [[chr '\r']] from by decide] at hpieces
  -- The empty line is a piece that is not the last.
  obtain ⟨pieces, last, hlast⟩ : ∃ pieces last, after.splitOn (chr '\n') = pieces ++ [last] :=
    ⟨_, _, (List.dropLast_append_getLast (List.splitOn_ne_nil _ _)).symm⟩
  rw [hlast, ← List.append_assoc, ← List.append_assoc] at hpieces
  have hinit := (List.append_inj' hpieces rfl).1
  have hmem : [chr '\r'] ∈ lines.map (· ++ [chr '\r']) := by
    rw [← hinit]
    simp
  obtain ⟨line, hline, heq⟩ := List.mem_map.mp hmem
  exact hne line hline (List.append_left_eq_self.mp heq)

theorem findHead_joinLines (h : ∀ l ∈ lines, OneLine l) (hne : ∀ l ∈ lines, l ≠ [])
    (hlines : lines ≠ []) (body : Bytes) :
    findHead (joinLines lines ++ lineBreak ++ body) = some (joinLines lines ++ lineBreak, body) := by
  obtain ⟨before, hbefore⟩ : ∃ before, joinLines lines = before ++ lineBreak := by
    refine ⟨joinLines lines.dropLast ++ lines.getLast hlines, ?_⟩
    conv_lhs => rw [← List.dropLast_append_getLast hlines]
    simp [joinLines]
  have hend : joinLines lines ++ lineBreak = before ++ headerEnd := by
    rw [hbefore, List.append_assoc]
    rfl
  have hcontains := contains_joinLines h hne
  rw [hbefore, List.append_assoc] at hcontains
  unfold findHead
  rw [hend, (splitOnce_append_iff (by decide)).mpr hcontains]
  rfl

/-! ## What a peer reads -/

def writtenHead (peer : Peer) (attempt : Attempt) (r : Outgoing) : Bytes :=
  joinLines (requestLineText r :: writtenHeaders peer attempt r) ++ lineBreak

theorem writeRequest_eq (peer : Peer) (attempt : Attempt) (r : Outgoing) :
    writeRequest peer attempt r = writtenHead peer attempt r ++ r.body := rfl

/-- The parser reads one request from a text, all of it, with the method, the path and the body of
the request that was sent. -/
structure ReadBack (raw : Bytes) (r : Outgoing) (q : ReceivedRequest) : Prop where
  parsed : parseHttpRequest raw = some q
  whole : q.head ++ q.body = raw
  method : (requestLine q.head).headD [] = r.method
  path : requestPath q = r.path
  body : q.body = r.body

/-- A path that decoding leaves alone, without blanks and question marks. -/
structure PlainPath (path : Bytes) : Prop where
  ne_nil : path ≠ []
  noSpace : NoSpace path
  noQuery : chr '?' ∉ path
  decoded : urlDecode path = path

theorem writeRequest_line (peer : Peer) (attempt : Attempt) (r : Outgoing) :
    ∃ rest, writeRequest peer attempt r = r.method ++ chr ' ' ::
      ((if r.path = [] then lit "/" else r.path) ++ (queryText r.queryParams ++ lineTail rest)) := by
  refine ⟨joinLines (writtenHeaders peer attempt r) ++ lineBreak ++ r.body, ?_⟩
  simp [writeRequest, joinLines, requestLineText, writtenPath_eq, lineTail,
    show lit " HTTP/1.1\r\n" = lit " HTTP/1.1" ++ lineBreak from rfl,
    show lit " " = [chr ' '] from rfl]

theorem firstWords_method (r : Forwarded) (t : Bytes) :
    firstWords (r.method ++ chr ' ' :: t) = r.method :: firstWords t := by
  unfold firstWords
  rw [takeWhile_newline_of_noSpace r.method_noSpace, List.takeWhile_cons_of_pos (by decide),
    wordsOf_append _ _ (by decide), wordsOf_noSpace r.method_noSpace r.method_ne_nil]
  rfl

/-- What a head that was parsed has passed. -/
theorem limits_of_parse {raw : Bytes} {q : ReceivedRequest} (h : parseHttpRequest raw = some q) :
    q.head.length ≤ httpMaxHeaderSize ∧ 3 ≤ (requestLine q.head).length := by
  unfold parseHttpRequest at h
  split at h
  · cases h
  split at h
  · cases h
  rename_i hsize
  split at h
  · rename_i hvalid
    obtain ⟨body, -, rfl⟩ := Option.map_eq_some_iff.mp h
    rw [Bool.and_eq_true, decide_eq_true_eq] at hvalid
    exact ⟨Nat.le_of_not_lt hsize, hvalid.2⟩
  · cases h

theorem length_takeWhile_lt {b : UInt8} (h : b ∈ s) : (s.takeWhile (· != b)).length < s.length := by
  obtain ⟨l, t, rfl, hl⟩ := List.eq_append_cons_of_mem h
  have htake : (l ++ b :: t).takeWhile (· != b) = l := by
    rw [List.takeWhile_append_of_pos]
    · simp
    intro c hc
    have hne : c ≠ b := fun e => hl (e ▸ hc)
    simpa using hne
  rw [htake]
  simp

/-- **Only a plain path is read back.** -/
theorem ReadBack.plainPath {peer : Peer} {attempt : Attempt} {r : Forwarded} {q : ReceivedRequest}
    (h : ReadBack (writeRequest peer attempt r.toOutgoing) r.toOutgoing q) : PlainPath r.path := by
  obtain ⟨after, hhead⟩ := findHead_of_parse h.parsed
  obtain ⟨rest, hraw⟩ := writeRequest_line peer attempt r.toOutgoing
  have hline : requestLine q.head = r.method :: firstWords ((if r.path = [] then lit "/" else r.path)
      ++ (queryText r.queryParams ++ lineTail rest)) := by
    rw [requestLine_of_findHead hhead, hraw, firstWords_method]
  obtain ⟨word, version, words, hwords⟩ : ∃ word version words,
      firstWords ((if r.path = [] then lit "/" else r.path)
        ++ (queryText r.queryParams ++ lineTail rest)) = word :: version :: words := by
    have hlen := (limits_of_parse h.parsed).2
    rw [hline, List.length_cons] at hlen
    match hw : firstWords ((if r.path = [] then lit "/" else r.path)
        ++ (queryText r.queryParams ++ lineTail rest)), hlen with
    | word :: version :: words, _ => exact ⟨word, version, words, rfl⟩
    | [_], hlen => exact nomatch hlen
    | [], hlen => exact nomatch hlen
  have hpath : urlDecode (word.takeWhile (· != chr '?')) = r.path := by
    have := h.path
    unfold requestPath at this
    rw [hline, hwords] at this
    exact this
  have hquery := noSpace_queryText r.queryParams
  -- A word of its own, the path is read up to its first question mark.
  have hread : ∀ p : Bytes, NoSpace p → p ≠ [] →
      firstWords (p ++ (queryText r.queryParams ++ lineTail rest)) = word :: version :: words →
      urlDecode (p.takeWhile (· != chr '?')) = r.path := by
    intro p hp hne hw
    rw [← List.append_assoc, firstWords_lineTail (hp.append hquery),
      wordsOf_noSpace (hp.append hquery) (by simp [hne])] at hw
    rw [← takeWhile_queryText r.queryParams, (List.cons.inj hw).1]
    exact hpath
  have hne : r.path ≠ [] := by
    intro e
    have := hread (lit "/") (by decide) (by decide) (by rw [if_pos e] at hwords; exact hwords)
    rw [e] at this
    exact absurd this (by decide)
  rw [if_neg hne] at hwords
  have hspace : NoSpace r.path := by
    by_contra hblank
    exact ne_of_blank hblank hquery (takeWhile_queryText r.queryParams) hwords hpath
  have hdecoded := hread r.path hspace hne hwords
  have hnoQuery : chr '?' ∉ r.path := by
    intro hmem
    have hlt := length_takeWhile_lt hmem
    have hle := length_urlDecode_le (r.path.takeWhile (· != chr '?'))
    rw [hdecoded] at hle
    omega
  refine ⟨hne, hspace, hnoQuery, ?_⟩
  rw [List.takeWhile_eq_self_iff.mpr] at hdecoded
  · exact hdecoded
  intro b hb
  have : b ≠ chr '?' := fun e => hnoQuery (e ▸ hb)
  simpa using this

/-! ## Plain paths are read back -/

theorem headerName_headerLine {name value : Bytes} (hc : chr ':' ∉ name) :
    headerName (headerLine name value) = some (toLower (trimBlanks name)) := by
  have hsplit : headerLine name value = name ++ chr ':' :: (chr ' ' :: value) := by
    simp [headerLine, show lit ": " = [chr ':', chr ' '] from rfl]
  unfold headerName
  rw [hsplit, splitFirst_append hc]
  rfl

theorem contentLengthValue_headerLine {name value : Bytes} (hc : chr ':' ∉ name) :
    contentLengthValue (headerLine name value) =
      if toLower (trimBlanks name) = lit "content-length" then some (trimBlanks (chr ' ' :: value))
      else none := by
  have hsplit : headerLine name value = name ++ chr ':' :: (chr ' ' :: value) := by
    simp [headerLine, show lit ": " = [chr ':', chr ' '] from rfl]
  unfold contentLengthValue
  rw [hsplit, splitFirst_append hc]
  rfl

theorem trimBlanks_decimal (n : Nat) : trimBlanks (chr ' ' :: decimal n) = decimal n := by
  have hall : (decimal n).all isDigit = true :=
    List.all_eq_true.mpr fun b hb => isDigit_of_mem_decimal hb
  have hleft : trimLeft (chr ' ' :: decimal n) = decimal n := by
    unfold trimLeft
    rw [List.dropWhile_cons_of_pos (by decide)]
    cases hd : decimal n with
    | nil => rfl
    | cons b rest =>
      have hb : isDigit b = true := isDigit_of_mem_decimal (n := n) (by rw [hd]; simp)
      refine List.dropWhile_cons_of_neg ?_
      have h₁ : b ≠ chr ' ' := by intro e; rw [e] at hb; exact absurd hb (by decide)
      have h₂ : b ≠ chr '\t' := by intro e; rw [e] at hb; exact absurd hb (by decide)
      simp [isBlank, h₁, h₂]
  unfold trimBlanks
  rw [hleft, trimRight_of_digits hall]

section Written

variable (peer : Peer) (attempt : Attempt) {r : Forwarded}

/-- All lines that are written but the last, which has the length of the body. -/
theorem writtenHeaders_split (peer : Peer) (attempt : Attempt) (r : Outgoing) :
    ∃ lines, writtenHeaders peer attempt r
        = lines ++ [headerLine (lit "Content-Length") (decimal r.body.length)] ∧
      ∀ l ∈ lines, ∃ name value, l = headerLine name value ∧ chr ':' ∉ name ∧
        toLower (trimBlanks name) ≠ lit "content-length" := by
  have hother : ∀ {name value : Bytes}, chr ':' ∉ name →
      toLower (trimBlanks name) ≠ lit "content-length" →
      ∀ l ∈ headerLineIfPresent name value, ∃ name value, l = headerLine name value ∧
        chr ':' ∉ name ∧ toLower (trimBlanks name) ≠ lit "content-length" := by
    intro name value hc hne l hl
    unfold headerLineIfPresent at hl
    split at hl
    · exact absurd hl List.not_mem_nil
    · exact ⟨name, value, List.mem_singleton.mp hl, hc, hne⟩
  unfold writtenHeaders
  by_cases hbody : r.body = []
  · refine ⟨_, by rw [hbody]; rfl, ?_⟩
    intro l hl
    simp only [List.mem_append, List.mem_cons, List.not_mem_nil, or_false] at hl
    rcases hl with (((hl | hl) | hl) | hl) | hl
    · rcases hl with rfl | rfl | rfl | rfl
      all_goals exact ⟨_, _, rfl, by decide, by decide⟩
    all_goals exact hother (by decide) (by decide) l hl
  · simp only [if_neg hbody]
    refine ⟨_, List.append_assoc _ [_] [_] |>.symm, ?_⟩
    intro l hl
    simp only [List.mem_append, List.mem_cons, List.not_mem_nil, or_false] at hl
    rcases hl with ((((hl | hl) | hl) | hl) | hl) | rfl
    · rcases hl with rfl | rfl | rfl | rfl
      all_goals exact ⟨_, _, rfl, by decide, by decide⟩
    · exact hother (by decide) (by decide) l hl
    · exact hother (by decide) (by decide) l hl
    · exact hother (by decide) (by decide) l hl
    · exact hother (by decide) (by decide) l hl
    · exact ⟨_, _, rfl, by decide, by decide⟩

theorem ne_nil_of_written (r : Forwarded) :
    ∀ l ∈ requestLineText r.toOutgoing :: writtenHeaders peer attempt r.toOutgoing, l ≠ [] := by
  intro l hl
  rcases List.mem_cons.mp hl with rfl | hl
  · simp [requestLineText, r.method_ne_nil]
  · obtain ⟨name, value, rfl, -⟩ := isWritten_of_mem hl
    simp [headerLine, show lit ": " = [chr ':', chr ' '] from rfl]

section

variable (h : PlainPath r.path)
include h

theorem oneLine_of_written :
    ∀ l ∈ requestLineText r.toOutgoing :: writtenHeaders peer attempt r.toOutgoing, OneLine l :=
  oneLine_written r.method_noSpace.oneLine h.noSpace.oneLine

theorem findHead_written (body : Bytes) :
    findHead (writtenHead peer attempt r.toOutgoing ++ body)
      = some (writtenHead peer attempt r.toOutgoing, body) :=
  findHead_joinLines (oneLine_of_written peer attempt h) (ne_nil_of_written peer attempt r) (List.cons_ne_nil _ _) body

theorem headerLines_written :
    headerLines (writtenHead peer attempt r.toOutgoing)
      = writtenHeaders peer attempt r.toOutgoing := by
  have hlines := getlines_joinLines lineBreak (oneLine_of_written peer attempt h)
  have hne := ne_nil_of_written peer attempt r
  unfold headerLines writtenHead
  rw [hlines, show getlines (chr '\n') lineBreak = [[chr '\r']] from by decide, List.map_cons,
    List.cons_append, List.tail_cons, List.takeWhile_append_of_pos]
  · simp only [ne_eq, not_true_eq_false, decide_false, List.takeWhile_cons, Bool.false_eq_true,
      if_false, List.append_nil, List.map_map]
    conv_rhs => rw [← List.map_id (writtenHeaders peer attempt r.toOutgoing)]
    refine List.map_congr_left ?_
    intro l _
    exact chopReturn_line l
  · intro l hl
    obtain ⟨line, hline, rfl⟩ := List.mem_map.mp hl
    have := hne line (List.mem_cons_of_mem _ hline)
    simpa using this

theorem nil_not_mem_headerLines :
    [] ∉ headerLines (writtenHead peer attempt r.toOutgoing) := by
  rw [headerLines_written peer attempt h]
  intro hmem
  exact ne_nil_of_written peer attempt r [] (List.mem_cons_of_mem _ hmem) rfl

theorem requestLine_written :
    requestLine (writtenHead peer attempt r.toOutgoing)
      = [r.method, r.path ++ queryText r.queryParams, lit "HTTP/1.1"] := by
  obtain ⟨rest, hraw⟩ := writeRequest_line peer attempt r.toOutgoing
  have hhead := findHead_written peer attempt h r.body
  rw [requestLine_of_findHead hhead, ← writeRequest_eq, hraw, firstWords_method, if_neg h.ne_nil,
    ← List.append_assoc, firstWords_lineTail (h.noSpace.append (noSpace_queryText _)),
    wordsOf_noSpace (h.noSpace.append (noSpace_queryText _)) (by simp [h.ne_nil])]
  rfl

end

def wireRequest (h : PlainPath r.path) : WireRequest where
  head := writtenHead peer attempt r.toOutgoing
  body := r.body
  ends := by simpa using findHead_written peer attempt h []
  framed := by
    obtain ⟨lines, hsplit, hnames⟩ := writtenHeaders_split peer attempt r.toOutgoing
    unfold hasValidRequestFramingHeaders
    rw [framingLines_eq_headerLines (nil_not_mem_headerLines peer attempt h), headerLines_written peer attempt h]
    rw [Bool.and_eq_true, decide_eq_true_eq]
    refine ⟨?_, ?_⟩
    · refine List.all_eq_true.mpr ?_
      intro name hname
      obtain ⟨line, hline, rfl⟩ := List.mem_map.mp hname
      obtain ⟨text, value, rfl, -, -, hc, hw⟩ := isWritten_of_mem hline
      have hall : ∀ n ∈ writtenNames, (n ≠ [] && n ≠ lit "transfer-encoding") = true := by decide
      rw [headerName_headerLine hc]
      exact hall _ hw
    · rw [hsplit, List.map_append, List.count_append]
      have hzero : (lines.map headerName).count (some (lit "content-length")) = 0 := by
        refine List.count_eq_zero_of_not_mem ?_
        intro hmem
        obtain ⟨line, hline, heq⟩ := List.mem_map.mp hmem
        obtain ⟨name, value, rfl, hc, hne⟩ := hnames line hline
        rw [headerName_headerLine hc] at heq
        exact hne (Option.some.inj heq)
      rw [hzero, Nat.zero_add]
      exact List.count_le_length
  line := by
    rw [requestLine_written peer attempt h]
    exact Nat.le_refl 3
  length := by
    obtain ⟨lines, hsplit, hnames⟩ := writtenHeaders_split peer attempt r.toOutgoing
    have hnone : lines.filterMap contentLengthValue = [] := by
      refine List.filterMap_eq_nil_iff.mpr ?_
      intro line hline
      obtain ⟨name, value, rfl, hc, hne⟩ := hnames line hline
      rw [contentLengthValue_headerLine hc, if_neg hne]
    have hvalue : contentLength (writtenHead peer attempt r.toOutgoing)
        = some (decimal r.body.length) := by
      unfold contentLength
      rw [framingLines_eq_headerLines (nil_not_mem_headerLines peer attempt h), headerLines_written peer attempt h, hsplit,
        List.filterMap_append, hnone, List.nil_append]
      simp [contentLengthValue_headerLine (show chr ':' ∉ lit "Content-Length" by decide),
        show toLower (trimBlanks (lit "Content-Length")) = lit "content-length" from by decide,
        trimBlanks_decimal]
    unfold declaredLength
    rw [hvalue]
    simp only
    rw [if_pos ⟨decimal_ne_nil _, List.all_eq_true.mpr fun b hb => isDigit_of_mem_decimal hb⟩,
      digitsValue_decimal]

/-- A request with a plain path is read back, if its head is not too long. -/
theorem readBack_of_plainPath (h : PlainPath r.path)
    (hsize : (writtenHead peer attempt r.toOutgoing).length ≤ httpMaxHeaderSize) :
    ReadBack (writeRequest peer attempt r.toOutgoing) r.toOutgoing
      ⟨writtenHead peer attempt r.toOutgoing, r.body⟩ where
  parsed := by
    have hbody := (wireRequest peer attempt h).takeBody_of_lines
      (nil_not_mem_headerLines peer attempt h) r.body_size
    unfold parseHttpRequest
    rw [writeRequest_eq, findHead_written peer attempt h]
    simp only
    rw [if_neg (by omega), if_pos]
    · exact Option.map_eq_some_iff.mpr ⟨r.body, hbody, rfl⟩
    · rw [requestLine_written peer attempt h, Bool.and_eq_true]
      exact ⟨(wireRequest peer attempt h).framed, rfl⟩
  whole := rfl
  method := by rw [requestLine_written peer attempt h]; rfl
  path := by
    have htake : r.path.takeWhile (· != chr '?') = r.path := by
      refine List.takeWhile_eq_self_iff.mpr ?_
      intro b hb
      have : b ≠ chr '?' := fun e => h.noQuery (e ▸ hb)
      simpa using this
    unfold requestPath
    simp only [requestLine_written peer attempt h, List.tail_cons, List.headD_cons]
    rw [takeWhile_queryText, htake, h.decoded]
  body := rfl

end Written

/-- A request for the document `a b` of the collection `c`. -/
def spacedRequest : Forwarded where
  method := lit "GET"
  path := lit "/collections/c/documents/a b"
  queryParams := ∅
  headers := ∅
  body := []
  headers_oneLine := oneLine_empty
  method_noSpace := by decide
  method_ne_nil := by decide
  body_size := by decide

def peerNode : Peer where
  host := lit "n"
  port := 80
  primaryToken := []
  secondaryToken := []
  persistentTransport := false
  host_oneLine := by decide
  primaryToken_oneLine := oneLine_nil
  secondaryToken_oneLine := oneLine_nil

end Hlquery.Replication
