import Hlquery.Replication.Forwarding

/-!
# Query parameters between nodes

A node writes the parameters of a request to a peer with its own percent encoder, and the peer reads
them with a splitter and decoder of its own. **What is read is what was written**
(`parseQueryParams_queryString`), for texts without a zero byte that the decoder does not cut.
-/

set_option autoImplicit false

namespace Hlquery.Replication

open Bytes

def maxDecodedSize : Nat := 10 * 1024 * 1024

/-- The loop of `UrlDecode` with `DecodePlusAsSpace` on; `room` bytes may still be added. -/
def urlDecodePlus : Nat → Bytes → Bytes
  | 0, _ => []
  | room + 1, b :: x :: y :: rest =>
      if b == chr '%' && isHexDigit x && isHexDigit y then
        let value := hexDigitValue x * 16 + hexDigitValue y
        (if value = 0 then b else value) :: urlDecodePlus room rest
      else (if b = chr '+' then chr ' ' else b) :: urlDecodePlus room (x :: y :: rest)
  | room + 1, b :: rest => (if b = chr '+' then chr ' ' else b) :: urlDecodePlus room rest
  | _ + 1, [] => []

def addPair (params : ByteMap Bytes) (pair : Bytes) : ByteMap Bytes :=
  let decode := urlDecodePlus maxDecodedSize
  match splitFirst (chr '=') pair with
  | some (key, value) => params.insert (decode key) (decode value)
  | none => if pair = [] then params else params.insert (decode pair) (lit "true")

def parseQueryParams (query : Bytes) : ByteMap Bytes := (getlines (chr '&') query).foldl addPair ∅

/-- A text that the decoder gives back. -/
def Decodable (s : Bytes) : Prop := 0 ∉ s ∧ s.length ≤ maxDecodedSize

theorem urlDecodePlus_cons {b : UInt8} (h : b ≠ chr '%' ∧ b ≠ chr '+') (room : Nat) (s : Bytes) :
    urlDecodePlus (room + 1) (b :: s) = b :: urlDecodePlus room s := by
  match s with
  | [] | [_] | _ :: _ :: _ => simp [urlDecodePlus, h]

theorem urlDecodePlus_urlEncode : ∀ {s : Bytes} {room : Nat}, 0 ∉ s → s.length ≤ room →
    urlDecodePlus room (urlEncode s) = s
  | [], 0, _, _ => rfl
  | [], room + 1, _, _ => rfl
  | b :: s, room + 1, hzero, hroom => by
    have ih : urlDecodePlus room (urlEncode s) = s :=
      urlDecodePlus_urlEncode (fun h => hzero (by simp [h])) (by simpa using hroom)
    have hplain : ∀ b : UInt8, isUnreserved b = true → b ≠ chr '%' ∧ b ≠ chr '+' := by
      decide +kernel
    have hhex : ∀ b : UInt8, isHexDigit (hexDigit (b.toNat / 16)) = true ∧
        isHexDigit (hexDigit (b.toNat % 16)) = true ∧
        hexDigitValue (hexDigit (b.toNat / 16)) * 16 + hexDigitValue (hexDigit (b.toNat % 16)) = b := by
      decide +kernel
    rw [urlEncode, List.flatMap_cons]
    split
    · rename_i hb
      exact (urlDecodePlus_cons (hplain b hb) room _).trans (congrArg _ ih)
    · obtain ⟨hx, hy, hvalue⟩ := hhex b
      have hb : b ≠ 0 := fun e => hzero (by simp [e])
      simp only [List.cons_append, List.nil_append, urlDecodePlus, hx, hy, hvalue, if_neg hb]
      exact congrArg _ ih

/-- An encoded text has no separators. -/
theorem not_mem_urlEncode (s : Bytes) : chr '&' ∉ urlEncode s ∧ chr '=' ∉ urlEncode s :=
  ⟨fun h => absurd (mem_urlEncode h) (by decide), fun h => absurd (mem_urlEncode h) (by decide)⟩

def pairText (pair : Bytes × Bytes) : Bytes := urlEncode pair.1 ++ lit "=" ++ urlEncode pair.2

theorem addPair_pairText {pair : Bytes × Bytes} (h : Decodable pair.1 ∧ Decodable pair.2)
    (params : ByteMap Bytes) : addPair params (pairText pair) = params.insert pair.1 pair.2 := by
  have hsplit : splitFirst (chr '=') (pairText pair) = some (urlEncode pair.1, urlEncode pair.2) := by
    rw [pairText, List.append_assoc]
    exact splitFirst_append (not_mem_urlEncode _).2 _
  simp only [addPair, hsplit, urlDecodePlus_urlEncode h.1.1 h.1.2, urlDecodePlus_urlEncode h.2.1 h.2.2]

theorem foldl_addPair : ∀ {entries : List (Bytes × Bytes)},
    (∀ pair ∈ entries, Decodable pair.1 ∧ Decodable pair.2) → ∀ params : ByteMap Bytes,
      (entries.map pairText).foldl addPair params = params.insertAll entries
  | [], _, _ => rfl
  | pair :: entries, h, params => by
    rw [List.map_cons, List.foldl_cons, addPair_pairText (h pair (by simp)),
      foldl_addPair fun p hp => h p (List.mem_cons_of_mem _ hp)]
    rfl

/-- The pairs come apart where they were joined. -/
theorem getlines_queryString (params : ByteMap Bytes) :
    getlines (chr '&') (queryString params) = params.toList.map pairText := by
  unfold getlines queryString
  cases hlist : params.toList with
  | nil => rfl
  | cons pair entries =>
    have hsplit : ([chr '&'].intercalate ((pair :: entries).map pairText)).splitOn (chr '&') =
        (pair :: entries).map pairText := List.splitOn_intercalate _ ?_ (by simp)
    · rw [show (fun p : Bytes × Bytes => urlEncode p.1 ++ lit "=" ++ urlEncode p.2) = pairText from rfl]
      simp only [hsplit]
      refine if_neg fun hlast => ?_
      obtain ⟨p, -, hp⟩ := List.mem_map.mp (List.mem_of_getLast? hlast)
      exact absurd (congrArg List.length hp) (by simp [pairText, lit])
    · intro text htext hmem
      obtain ⟨p, -, rfl⟩ := List.mem_map.mp htext
      rcases List.mem_append.mp hmem with hmem | hmem
      · rcases List.mem_append.mp hmem with hmem | hmem
        · exact (not_mem_urlEncode _).1 hmem
        · revert hmem
          decide
      · exact (not_mem_urlEncode _).1 hmem

/-- **The parameters that a peer reads are those that were written.** -/
theorem parseQueryParams_queryString (params : ByteMap Bytes)
    (h : ∀ name value, params[name]? = some value → Decodable name ∧ Decodable value) :
    parseQueryParams (queryString params) = params := by
  have hentries : ∀ pair ∈ params.toList, Decodable pair.1 ∧ Decodable pair.2 := fun pair hpair =>
    h _ _ (Std.ExtTreeMap.mem_toList_iff_getElem?_eq_some.mp hpair)
  rw [parseQueryParams, getlines_queryString, foldl_addPair hentries]
  exact ByteMap.insertAll_of_perm (List.Perm.refl _)

theorem parseQueryParams_queryString_pair :
    parseQueryParams (queryString ((∅ : ByteMap Bytes).insert (lit "a&b") (lit "c=d %+"))) =
      (∅ : ByteMap Bytes).insert (lit "a&b") (lit "c=d %+") := by
  refine parseQueryParams_queryString _ fun name value hget => ?_
  rw [ByteMap.get_insert] at hget
  split at hget
  · rename_i hname
    cases hget
    exact hname ▸ ⟨⟨by decide, by decide⟩, by decide, by decide⟩
  · simp at hget

/-! ## Through the wire -/

open Http

/-- `Request.QueryParams`, from what follows the first question mark of the second word. -/
def requestQueryParams (q : ReceivedRequest) : ByteMap Bytes :=
  (splitFirst (chr '?') ((requestLine q.head).tail.headD [])).elim ∅ fun parts =>
    parseQueryParams parts.2

/-- **A request that is read back is read back with its parameters.** -/
theorem requestQueryParams_readBack {peer : Peer} {attempt : Attempt} {r : Forwarded}
    {q : ReceivedRequest} (hread : ReadBack (writeRequest peer attempt r.toOutgoing) r.toOutgoing q)
    (h : ∀ name value, r.queryParams[name]? = some value → Decodable name ∧ Decodable value) :
    requestQueryParams q = r.queryParams := by
  have hpath := hread.plainPath
  have hhead : q.head = writtenHead peer attempt r.toOutgoing := by
    have hwhole := hread.whole
    rw [hread.body, writeRequest_eq] at hwhole
    exact List.append_cancel_right hwhole
  have hparsed : parseQueryParams (queryString r.queryParams) = r.queryParams := by
    rw [parseQueryParams, getlines_queryString, foldl_addPair fun pair hpair =>
      h _ _ (Std.ExtTreeMap.mem_toList_iff_getElem?_eq_some.mp hpair)]
    exact ByteMap.insertAll_of_perm (List.Perm.refl _)
  rw [requestQueryParams, hhead, requestLine_written peer attempt hpath, List.tail_cons,
    List.headD_cons, queryText]
  split
  · rename_i hquery
    -- no question mark is written for a request without parameters
    have hnone : splitFirst (chr '?') (r.path ++ []) = none := by
      refine Option.eq_none_iff_forall_ne_some.mpr fun parts hsplit => hpath.noQuery ?_
      rw [← List.append_nil r.path, (splitFirst_eq_some.mp hsplit).1]
      simp
    rw [hnone, ← hparsed, hquery]
    rfl
  · rw [splitFirst_append hpath.noQuery]
    exact hparsed

def searchRequest : Forwarded :=
  { spacedRequest with
    path := lit "/search"
    queryParams := (∅ : ByteMap Bytes).insert (lit "q") (lit "a&b?") }

theorem requestQueryParams_searchRequest :
    ∃ q, ReadBack (writeRequest peerNode .primary searchRequest.toOutgoing) searchRequest.toOutgoing q ∧
      requestQueryParams q = searchRequest.queryParams := by
  have hread := readBack_of_plainPath (r := searchRequest) peerNode .primary
    ⟨by decide, by decide, by decide, by decide⟩ (by decide +kernel)
  refine ⟨_, hread, requestQueryParams_readBack hread fun name value hget => ?_⟩
  rw [searchRequest, ByteMap.get_insert] at hget
  split at hget
  · rename_i hname
    cases hget
    exact hname ▸ ⟨⟨by decide, by decide⟩, by decide, by decide⟩
  · cases hget

end Hlquery.Replication
