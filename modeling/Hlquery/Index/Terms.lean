import Hlquery.Lib.ByteMap

/-!
# From text to terms

`ExtractTerms` cuts a text at a fixed set of separators and normalizes each word: lower case, and
no punctuation at either end. A word that starts with a dollar sign in front of a letter or digit
is a cashtag, and is indexed a second time without the sign. A term that belongs to a field is also
indexed under a synthetic term that carries the name of the field; since a separator stands between
the two, no word of a text is such a term, and the field and the word can be told apart again
(`buildFieldScopedTerm_inj`).

The functions on URLs only decide which terms get another weight.
-/

set_option autoImplicit false

namespace Hlquery

abbrev ByteSet := Std.ExtTreeSet Bytes compare

namespace Index

open Bytes

/-! ## Words -/

def keepsAtEnd (b : UInt8) : Bool := isAlnum b || b == chr '*' || b == chr '?' || b == chr '_'

def isNormalizedCashtag : Bytes → Bool
  | c :: d :: _ => c == chr '$' && isAlnum d
  | _ => false

/-- The front of a word: punctuation goes, up to a cashtag. -/
def trimFront : Bytes → Bytes
  | [] => []
  | c :: s => if !keepsAtEnd c && !isNormalizedCashtag (c :: s) then trimFront s else c :: s

def trimBack (s : Bytes) : Bytes := (s.reverse.dropWhile fun b => !keepsAtEnd b).reverse

def normalizeTerm (term : Bytes) : Bytes := trimBack (trimFront (toLower term))

/-- `NormalizeUrlToken`, which knows no cashtags. -/
def normalizeUrlToken (token : Bytes) : Bytes :=
  trimBack ((toLower token).dropWhile fun b => !keepsAtEnd b)

def separators : Bytes := lit "-.,:/\\()[]\x7b\x7d@#%&+=;|!?~^`"

/-- `IsTermSeparator` at the head of the rest of the text; a dollar sign is one unless it starts a
cashtag. -/
def isTermSeparator : Bytes → Bool
  | [] => false
  | c :: s => if c = chr '$' then !isNormalizedCashtag (c :: s) else isSpace c || separators.elem c

def skipSeparators : Bytes → Bytes
  | [] => []
  | c :: s => if isTermSeparator (c :: s) then skipSeparators s else c :: s

/-- The word after its first character, and what follows it. A dollar sign starts the next word. -/
def restOfWord : Bytes → Bytes × Bytes
  | [] => ([], [])
  | c :: s =>
      if isTermSeparator (c :: s) || c == chr '$' then ([], c :: s)
      else (c :: (restOfWord s).1, (restOfWord s).2)

def wordTerms (word : Bytes) : List Bytes :=
  let normalized := normalizeTerm word
  if normalized = [] then []
  else if isNormalizedCashtag normalized then [normalized, normalized.tail]
  else [normalized]

def extractLoop : Nat → Nat → Bytes → List Bytes
  | 0, _, _ => []
  | fuel + 1, words, text =>
      if words = 0 then []
      else
        match skipSeparators text with
        | [] => []
        | c :: s =>
            let terms := wordTerms (c :: (restOfWord s).1)
            terms ++ extractLoop fuel (if terms = [] then words else words - 1) (restOfWord s).2

def maxTextSize : Nat := 1000000
def maxTerms : Nat := 100000

/-- Every round takes a byte at least, so the length of the text is fuel enough. -/
def extractTerms (text : Bytes) : List Bytes :=
  let textToProcess := text.take maxTextSize
  extractLoop textToProcess.length maxTerms textToProcess

theorem length_skipSeparators_le (s : Bytes) : (skipSeparators s).length ≤ s.length := by
  induction s with
  | nil => exact Nat.le_refl _
  | cons c s ih =>
    unfold skipSeparators
    split
    · exact Nat.le_succ_of_le ih
    · exact Nat.le_refl _

theorem length_restOfWord_le (s : Bytes) : (restOfWord s).2.length ≤ s.length := by
  induction s with
  | nil => exact Nat.le_refl _
  | cons c s ih =>
    unfold restOfWord
    split
    · exact Nat.le_refl _
    · exact Nat.le_succ_of_le ih

/-- **The loop does not run out of fuel**: more of it changes nothing. -/
theorem extractLoop_fuel :
    ∀ {fuel fuel' : Nat} (words : Nat) {text : Bytes}, text.length ≤ fuel → text.length ≤ fuel' →
      extractLoop fuel words text = extractLoop fuel' words text
  | 0, 0, _, _, _, _ => rfl
  | 0, fuel' + 1, words, text, h, _ => by
    obtain rfl : text = [] := List.length_eq_zero_iff.mp (by omega)
    simp [extractLoop, skipSeparators]
  | fuel + 1, 0, words, text, _, h => by
    obtain rfl : text = [] := List.length_eq_zero_iff.mp (by omega)
    simp [extractLoop, skipSeparators]
  | fuel + 1, fuel' + 1, words, text, h, h' => by
    unfold extractLoop
    by_cases hw : words = 0
    · rw [if_pos hw, if_pos hw]
    rw [if_neg hw, if_neg hw]
    cases hs : skipSeparators text with
    | nil => rfl
    | cons c s =>
      have hskip := length_skipSeparators_le text
      rw [hs, List.length_cons] at hskip
      have hrest := length_restOfWord_le s
      have := extractLoop_fuel (if wordTerms (c :: (restOfWord s).1) = [] then words else words - 1)
        (show (restOfWord s).2.length ≤ fuel by omega)
        (show (restOfWord s).2.length ≤ fuel' by omega)
      simp [this]

/-! ## No term holds a colon -/

variable {term s : Bytes} {b : UInt8}

theorem colon_not_separated {c : UInt8} (h : isTermSeparator (c :: s) = false) : c ≠ chr ':' := by
  rintro rfl
  rw [isTermSeparator, if_neg (by decide)] at h
  exact absurd h (by decide)

theorem toLowerByte_ne_colon (h : b ≠ chr ':') : toLowerByte b ≠ chr ':' := by
  unfold toLowerByte
  split
  · rename_i hb
    simp only [Bool.and_eq_true, decide_eq_true_eq] at hb
    intro he
    have := congrArg UInt8.toNat he
    rw [UInt8.toNat_add] at this
    have h₁ := UInt8.le_iff_toNat_le.mp hb.1
    have h₂ := UInt8.le_iff_toNat_le.mp hb.2
    simp only [chr] at this
    have e₁ : (65 : UInt8).toNat = 65 := rfl
    have e₂ : (90 : UInt8).toNat = 90 := rfl
    have e₃ : (32 : UInt8).toNat = 32 := rfl
    have e₄ : (':'.toNat.toUInt8).toNat = 58 := rfl
    omega
  · exact h

theorem mem_trimFront : ∀ {s : Bytes}, b ∈ trimFront s → b ∈ s
  | [], h => h
  | c :: s, h => by
    unfold trimFront at h
    split at h
    · exact List.mem_cons_of_mem _ (mem_trimFront h)
    · exact h

theorem mem_trimBack (h : b ∈ trimBack s) : b ∈ s := by
  unfold trimBack at h
  rw [List.mem_reverse] at h
  exact List.mem_reverse.mp ((List.dropWhile_sublist _).mem h)

theorem colon_not_mem_restOfWord : ∀ s : Bytes, chr ':' ∉ (restOfWord s).1
  | [] => by simp [restOfWord]
  | c :: s => by
    unfold restOfWord
    split
    · simp
    rename_i h
    simp only [Bool.or_eq_true, not_or, Bool.not_eq_true] at h
    rw [List.mem_cons, not_or]
    exact ⟨Ne.symm (colon_not_separated h.1), colon_not_mem_restOfWord s⟩

theorem colon_not_mem_normalizeTerm {word : Bytes} (h : chr ':' ∉ word) :
    chr ':' ∉ normalizeTerm word := by
  intro hm
  obtain ⟨b, hb, he⟩ := List.mem_map.mp (mem_trimFront (mem_trimBack hm))
  exact toLowerByte_ne_colon (fun hc => h (hc ▸ hb)) he

theorem colon_not_mem_wordTerms {word : Bytes} (h : chr ':' ∉ word) (ht : term ∈ wordTerms word) :
    chr ':' ∉ term := by
  have hn := colon_not_mem_normalizeTerm h
  unfold wordTerms at ht
  dsimp only at ht
  split at ht
  · cases ht
  split at ht
  · rcases List.mem_cons.mp ht with rfl | ht
    · exact hn
    · rw [List.mem_singleton] at ht
      rw [ht]
      exact fun hm => hn (List.mem_of_mem_tail hm)
  · rw [List.mem_singleton] at ht
    rw [ht]
    exact hn

theorem head_skipSeparators {c : UInt8} :
    ∀ {text : Bytes}, skipSeparators text = c :: s → isTermSeparator (c :: s) = false
  | [], h => absurd h (by simp [skipSeparators])
  | d :: text, h => by
    unfold skipSeparators at h
    split at h
    · exact head_skipSeparators h
    rename_i hd
    rw [← h]
    simpa using hd

/-- A term comes from a word that starts after the separators. -/
theorem mem_extractLoop : ∀ {fuel words : Nat} {text : Bytes}, term ∈ extractLoop fuel words text →
      ∃ c s, isTermSeparator (c :: s) = false ∧ term ∈ wordTerms (c :: (restOfWord s).1)
  | 0, _, _, h => absurd h (by simp [extractLoop])
  | fuel + 1, words, text, h => by
    unfold extractLoop at h
    split at h
    · cases h
    split at h
    · cases h
    rename_i c s hs
    rcases List.mem_append.mp h with ht | ht
    · exact ⟨c, s, head_skipSeparators hs, ht⟩
    · exact mem_extractLoop ht

/-- **No extracted term holds a colon.** -/
theorem colon_not_mem_extractTerms {text : Bytes} (h : term ∈ extractTerms text) :
    chr ':' ∉ term := by
  obtain ⟨c, s, hc, ht⟩ := mem_extractLoop h
  refine colon_not_mem_wordTerms ?_ ht
  rw [List.mem_cons, not_or]
  exact ⟨Ne.symm (colon_not_separated hc), colon_not_mem_restOfWord s⟩

/-- **No extracted term is empty.** -/
theorem ne_nil_of_mem_extractTerms {text : Bytes} (h : term ∈ extractTerms text) : term ≠ [] := by
  obtain ⟨c, s, -, ht⟩ := mem_extractLoop h
  unfold wordTerms at ht
  dsimp only at ht
  split at ht
  · cases ht
  rename_i hne
  split at ht
  · rename_i hcashtag
    -- a letter or digit follows the sign
    cases hn : normalizeTerm (c :: (restOfWord s).1) with
    | nil => exact absurd hn hne
    | cons sign rest =>
      rw [hn] at hcashtag ht
      cases rest with
      | nil => simp [isNormalizedCashtag] at hcashtag
      | cons d rest =>
        rcases List.mem_cons.mp ht with rfl | ht
        · simp
        · rw [List.mem_singleton.mp ht]
          simp
  · rw [List.mem_singleton.mp ht]
    exact hne

example : extractTerms (lit "Buy $SPY: 3.5$ (now)!") =
    [lit "buy", lit "$spy", lit "spy", lit "3", lit "5", lit "now"] := by
  decide +kernel

/-! ## Terms of a field -/

def buildFieldScopedTerm (fieldName term : Bytes) : Bytes :=
  lit "__field__" ++ fieldName ++ chr ':' :: term

theorem colon_mem_buildFieldScopedTerm (fieldName term : Bytes) :
    chr ':' ∈ buildFieldScopedTerm fieldName term := by
  simp [buildFieldScopedTerm]

/-- The last colon ends the name of the field, so the field and the term can be read off. -/
theorem buildFieldScopedTerm_inj {f f' t t' : Bytes} (ht : chr ':' ∉ t) (ht' : chr ':' ∉ t')
    (h : buildFieldScopedTerm f t = buildFieldScopedTerm f' t') : f = f' ∧ t = t' := by
  unfold buildFieldScopedTerm at h
  rw [List.append_assoc, List.append_assoc, List.append_cancel_left_eq] at h
  have hrev := congrArg List.reverse h
  simp only [List.reverse_append, List.reverse_cons, List.append_assoc, List.singleton_append]
    at hrev
  have hsplit := splitFirst_append (show chr ':' ∉ t.reverse by simpa using ht) f.reverse
  rw [hrev, splitFirst_append (show chr ':' ∉ t'.reverse by simpa using ht')] at hsplit
  obtain ⟨h₁, h₂⟩ := Prod.mk.inj (Option.some.inj hsplit)
  exact ⟨(List.reverse_inj.mp h₂).symm, (List.reverse_inj.mp h₁).symm⟩

def fieldNameHasToken (fieldName : Bytes) (tokens : List Bytes) : Bool :=
  tokens.any fun token => contains (toLower fieldName) token

/-! ## Terms of a URL -/

def isLikelyTld (tail : Bytes) : Bool :=
  let lower := toLower tail
  if tail = [] then false
  else if lower.length < 2 ∨ 63 < lower.length then false
  else if startsWith lower (lit "xn--") then lower.all fun b => isAlnum b || b == chr '-'
  else lower.all isAlpha

def isValidHostLabel (label : Bytes) : Bool :=
  label ≠ [] && label.length ≤ 63 && label.head? ≠ some (chr '-') &&
    label.getLast? ≠ some (chr '-') && label.all fun b => isAlnum b || b == chr '-'

def splitAndValidateHostname (host : Bytes) : Option (List Bytes × Bytes) :=
  if host = [] ∨ contains host (lit "..") then none
  else
    let parts := getlines (chr '.') host
    if parts.all isValidHostLabel && 2 ≤ parts.length then
      parts.getLast?.bind fun tld => if isLikelyTld tld then some (parts, tld) else none
    else none

/-- A token in lower case, without its scheme and a leading `www.`. -/
def withoutScheme (token : Bytes) : Bytes :=
  let lower := toLower token
  let lower := ((splitOnce (lit "://") lower).map Prod.snd).getD lower
  (stripPrefix (lit "www.") lower).getD lower

def endsHost (b : UInt8) : Bool := b == chr '/' || b == chr '?' || b == chr '#'

def hostPart (token : Bytes) : Bytes := (withoutScheme token).takeWhile fun b => !endsHost b

def withoutPort (host : Bytes) : Bytes := host.takeWhile fun b => b ≠ chr ':'

def extractHostFromToken (token : Bytes) : Bytes := withoutPort (hostPart token)

def trimUrlToken (token : Bytes) : Bytes :=
  let trims := fun b => isPunct b && b != chr '/' && b != chr ':'
  ((token.dropWhile trims).reverse.dropWhile trims).reverse

/-- The terms and the top-level domains that the URLs of a document give. -/
structure UrlTerms where
  terms : ByteSet
  tlds : ByteSet

/-- The runs of letters, digits, `_` and `-` in the path of a URL. -/
def pathTokens (path : Bytes) : List Bytes :=
  (path.splitOnP fun b => !(isAlnum b || b == chr '_' || b == chr '-')).filter (· ≠ [])

def addUrlParts (url : UrlTerms) (urlToken : Bytes) : UrlTerms :=
  let token := trimUrlToken urlToken
  if token = [] ∨ token.elem (chr '@') then url
  else if hostPart token = [] then url
  else
    match splitAndValidateHostname (extractHostFromToken token) with
    | none => url
    | some (parts, tld) =>
        let labels := (parts.dropLast.map normalizeUrlToken).filter (· ≠ [])
        let path := ((withoutScheme token).dropWhile fun b => !endsHost b).tail
        let segments := ((pathTokens path).map normalizeUrlToken).filter fun t => 2 ≤ t.length
        { terms := (labels ++ segments).foldl (fun set term => set.insert term) url.terms
          tlds := url.tlds.insert tld }

/-- Tokens with a scheme, with `www.` in front, or with a host name that is valid by itself. -/
def looksLikeUrl (token : Bytes) : Bool :=
  contains token (lit "://") || startsWith token (lit "www.") ||
    (splitAndValidateHostname (extractHostFromToken token)).isSome

def extractUrlTerms (url : UrlTerms) (text : Bytes) : UrlTerms :=
  let tokens := ((text.splitOnP isSpace).filter (· ≠ [])).map trimUrlToken
  (tokens.filter fun token => token ≠ [] && looksLikeUrl token).foldl addUrlParts url

end Index

end Hlquery
