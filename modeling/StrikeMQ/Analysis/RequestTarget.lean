import StrikeMQ.Lib.FiniteMap
import StrikeMQ.Interface.RequestTarget
import StrikeMQ.Model.HttpServer

/-!
# Request lines are read as they are written

An encoded part of a request line has no space, `?`, `&` or `=` in it, so each of the splits of
`parse_request_line` ends where the part was written to end, and each part is decoded on its own.
Decoding undoes the encoding byte by byte, also at the end of the text, where `url_decode` looks
for the two digits.
-/

set_option autoImplicit false

namespace StrikeMQ.Analysis.RequestTarget

open StrikeMQ.Lib StrikeMQ.Model StrikeMQ.Model.HttpServer StrikeMQ.Interface

/-! ## One part -/

section Parts

variable (style : UriStyle) (slash : Bool)

theorem hexValue_digit (hexCase : HexCase) : ∀ n < 16, hexValue (hexCase.digit n) = some n := by
  cases hexCase <;> decide

/-- INTERNAL: an escaped byte is decoded, with digits of either case. -/
theorem urlDecode_escape (c : UInt8) (rest : Bytes) :
    urlDecode (0x25 :: style.hexCase.digit (c.toNat / 16) ::
      style.hexCase.digit (c.toNat % 16) :: rest) = c :: urlDecode rest := by
  have hc : c.toNat < 256 := c.toNat_lt
  have hdigits : (c.toNat / 16) <<< 4 ||| c.toNat % 16 = c.toNat := by
    rw [← Nat.shiftLeft_add_eq_or_of_lt (by omega), Nat.shiftLeft_eq]
    omega
  rw [urlDecode, if_pos rfl, hexValue_digit _ _ (by omega), hexValue_digit _ _ (by omega)]
  show UInt8.ofNat _ :: _ = _
  rw [hdigits, UInt8.ofNat_toNat]

/-- INTERNAL: any other byte but a plus stands for itself. -/
theorem urlDecode_plain {c : UInt8} (hpercent : c ≠ 0x25) (hplus : c ≠ 0x2b) (rest : Bytes) :
    urlDecode (c :: rest) = c :: urlDecode rest := by
  have hsame : decodePlus c = c := if_neg hplus
  match rest with
  | [] => simp only [urlDecode, hsame]
  | [d] => simp only [urlDecode, hsame]
  | d :: e :: rest => simp only [urlDecode, if_neg hpercent, hsame]

/-- INTERNAL: a byte that stands for itself is none of those that mean something else. -/
theorem ne_of_kept {c x : UInt8} (h : Unreserved c ∨ (slash = true ∧ c = 0x2f))
    (hx : ¬ Unreserved x) (hslash : x ≠ 0x2f) : c ≠ x := by
  rintro rfl
  rcases h with h | h
  · exact hx h
  · exact hslash h.2

/-- INTERNAL: **decoding undoes the encoding**, whatever follows. -/
theorem urlDecode_encode_append (s rest : Bytes) :
    urlDecode (style.encode slash s ++ rest) = s ++ urlDecode rest := by
  induction s with
  | nil => rfl
  | cons c s ih =>
    rw [UriStyle.encode, List.flatMap_cons, List.append_assoc, UriStyle.encodeByte]
    split
    · next hkept =>
      rw [List.singleton_append, urlDecode_plain (ne_of_kept slash hkept (by decide) (by decide))
        (ne_of_kept slash hkept (by decide) (by decide))]
      exact congrArg (c :: ·) ih
    · rw [List.cons_append, List.cons_append, List.singleton_append, urlDecode_escape]
      exact congrArg (c :: ·) ih

theorem urlDecode_encode (s : Bytes) : urlDecode (style.encode slash s) = s := by
  have hdecode := urlDecode_encode_append style slash s []
  rwa [List.append_nil, urlDecode, List.append_nil] at hdecode

/-- A part of bytes that stand for themselves. -/
theorem encode_of_kept {s : Bytes} (h : ∀ c ∈ s, Unreserved c ∨ c = 0x2f) :
    style.encode true s = s := by
  induction s with
  | nil => rfl
  | cons c s ih =>
    obtain ⟨hc, hs⟩ := List.forall_mem_cons.mp h
    rw [UriStyle.encode, List.flatMap_cons, UriStyle.encodeByte,
      if_pos (hc.imp_right fun hslash => ⟨rfl, hslash⟩)]
    exact congrArg (c :: ·) (ih hs)

/-- The bytes at which a request line is split. -/
def separators : Bytes :=
  [0x20, 0x26, 0x3d, 0x3f]

theorem digit_notMem_separators (hexCase : HexCase) :
    ∀ n < 16, hexCase.digit n ∉ separators := by
  cases hexCase <;> decide

/-- INTERNAL: an encoded part is not split. -/
theorem separator_notMem_encode {x : UInt8} (hx : x ∈ separators) (s : Bytes) :
    x ∉ style.encode slash s := by
  have hplain : ∀ y ∈ separators, ¬ Unreserved y ∧ y ≠ 0x2f ∧ y ≠ 0x25 := by
    decide +kernel
  obtain ⟨hreserved, hslash, hpercent⟩ := hplain x hx
  intro hmem
  obtain ⟨c, -, hc⟩ := List.mem_flatMap.mp hmem
  have hlt : c.toNat < 256 := c.toNat_lt
  unfold UriStyle.encodeByte at hc
  split at hc
  · next hkept =>
    exact ne_of_kept slash hkept hreserved hslash (List.mem_singleton.mp hc).symm
  · simp only [List.mem_cons, List.not_mem_nil, or_false] at hc
    rcases hc with rfl | rfl | rfl
    · exact hpercent rfl
    · exact digit_notMem_separators _ _ (by omega) hx
    · exact digit_notMem_separators _ _ (by omega) hx

end Parts

/-! ## Splits -/

section Splits

variable {a : UInt8} {front : Bytes}

theorem findSub_split (h : a ∉ front) (back : Bytes) :
    findSub [a] (front ++ a :: back) = some front.length :=
  findSub_singleton_iff.mpr ⟨front, back, rfl, h, rfl⟩

theorem findSub_unsplit (h : a ∉ front) : findSub [a] front = none :=
  findSub_eq_none_of_not_mem h []

theorem drop_split (back : Bytes) : (front ++ a :: back).drop (front.length + 1) = back := by
  rw [← List.drop_drop, List.drop_left]
  rfl

end Splits

/-! ## Pairs -/

section Pairs

variable (style : UriStyle)

theorem separator_notMem_pair {x : UInt8} (hx : x ∈ separators) (hne : x ≠ 0x3d)
    (kv : Bytes × Bytes) : x ∉ style.pair kv := by
  rw [UriStyle.pair, List.mem_append, List.mem_cons, not_or, not_or]
  exact ⟨separator_notMem_encode _ _ hx _, hne, separator_notMem_encode _ _ hx _⟩

/-- INTERNAL: an encoded pair is stored decoded. -/
theorem parsePair_pair (params : StringMap) (kv : Bytes × Bytes) :
    parsePair params (style.pair kv) = params.insert kv.1 kv.2 := by
  have hkey := separator_notMem_encode style style.slashInQuery
    (show (0x3d : UInt8) ∈ separators by decide) kv.1
  rw [UriStyle.pair, parsePair, findSub_split hkey]
  dsimp only
  rw [List.take_left, drop_split, urlDecode_encode, urlDecode_encode]

theorem pair_ne_nil (kv : Bytes × Bytes) : style.pair kv ≠ [] := by
  simp [UriStyle.pair]

/-- INTERNAL: **the loop over the pairs** stores them one after the other. -/
theorem parseQuery_query (kvs : List (Bytes × Bytes)) (params : StringMap) {fuel : ℕ}
    (hfuel : (style.query kvs).length ≤ fuel) :
    parseQuery fuel (style.query kvs) params =
      kvs.foldl (fun m kv => m.insert kv.1 kv.2) params := by
  have hamp : ∀ kv, (0x26 : UInt8) ∉ style.pair kv := fun kv =>
    separator_notMem_pair style (by decide) (by decide) kv
  induction kvs using UriStyle.query.induct generalizing params fuel with
  | case1 => cases fuel <;> rfl
  | case2 kv =>
    obtain ⟨b, bs, hpair⟩ := List.exists_cons_of_ne_nil (pair_ne_nil style kv)
    rw [UriStyle.query] at hfuel ⊢
    obtain ⟨fuel, rfl⟩ := Nat.exists_eq_add_of_le' (show 1 ≤ fuel by
      rw [hpair, List.length_cons] at hfuel
      omega)
    rw [parseQuery, if_neg (pair_ne_nil style kv), findSub_unsplit (hamp kv)]
    exact parsePair_pair style params kv
  | case3 kv kv' kvs ih =>
    rw [UriStyle.query] at hfuel ⊢
    rw [List.length_append, List.length_cons] at hfuel
    obtain ⟨fuel, rfl⟩ := Nat.exists_eq_add_of_le' (show 1 ≤ fuel by omega)
    rw [parseQuery, if_neg (by simp), findSub_split (hamp kv)]
    dsimp only
    rw [List.take_left, drop_split, parsePair_pair, ih _ (by omega)]
    rfl

/-- INTERNAL: pairs with distinct keys are what is found afterwards. -/
theorem lookup_foldl_pairs {kvs : List (Bytes × Bytes)} (hkeys : (kvs.map Prod.fst).Nodup)
    (k v : Bytes) :
    (kvs.foldl (fun m kv => m.insert kv.1 kv.2) (∅ : StringMap)).lookup k = some v ↔
      (k, v) ∈ kvs := by
  rw [lookup_foldl_insert, AList.lookup_empty, Option.or_none, Option.map_eq_some_iff]
  constructor
  · rintro ⟨kv, hlast, rfl⟩
    obtain ⟨hmem, hkey⟩ := List.mem_filter.mp (List.mem_of_getLast? hlast)
    obtain rfl : kv.1 = k := by simpa using hkey
    exact hmem
  · intro hmem
    have hfilter : (k, v) ∈ kvs.filter fun kv => kv.1 = k := List.mem_filter.mpr ⟨hmem, by simp⟩
    refine ⟨(k, v), ?_, rfl⟩
    rw [List.getLast?_eq_some_getLast (List.ne_nil_of_mem hfilter), Option.some.injEq]
    obtain ⟨hlast, hkey⟩ := List.mem_filter.mp (List.getLast_mem (List.ne_nil_of_mem hfilter))
    refine List.inj_on_of_nodup_map hkeys hlast hmem ?_
    simpa using hkey

end Pairs

/-! ## The line -/

theorem space_notMem_query (style : UriStyle) (kvs : List (Bytes × Bytes)) :
    (0x20 : UInt8) ∉ style.query kvs := by
  have hpair : ∀ kv, (0x20 : UInt8) ∉ style.pair kv := fun kv =>
    separator_notMem_pair style (by decide) (by decide) kv
  induction kvs using UriStyle.query.induct with
  | case1 => exact List.not_mem_nil
  | case2 kv => exact hpair kv
  | case3 kv kv' kvs ih =>
    rw [UriStyle.query, List.mem_append, List.mem_cons, not_or, not_or]
    exact ⟨hpair kv, by decide, ih⟩

theorem space_notMem_uri (style : UriStyle) (path : Bytes) (params : List (Bytes × Bytes)) :
    (0x20 : UInt8) ∉ style.uri path params := by
  have hpath := separator_notMem_encode style true (show (0x20 : UInt8) ∈ separators by decide) path
  unfold UriStyle.uri
  split
  · exact hpath
  · rw [List.mem_append, List.mem_cons, not_or, not_or]
    exact ⟨hpath, by decide, space_notMem_query style params⟩

/-- INTERNAL: a URI is taken apart into the path and the parameters it was made of. -/
theorem parseUri_uri (style : UriStyle) (method path : Bytes) (params : List (Bytes × Bytes)) :
    parseUri { method := method } (style.uri path params) =
      { method := method, path := path
        queryParams := params.foldl (fun m kv => m.insert kv.1 kv.2) ∅ } := by
  have hpath := separator_notMem_encode style true (show (0x3f : UInt8) ∈ separators by decide) path
  unfold UriStyle.uri
  split
  · next hnone =>
    rw [parseUri, findSub_unsplit hpath]
    dsimp only
    rw [urlDecode_encode, hnone, List.foldl_nil]
  · rw [parseUri, findSub_split hpath]
    dsimp only
    rw [List.take_left, drop_split, urlDecode_encode, parseQuery_query style params ∅ le_rfl]

/-- PROPERTY: for every method without a space, every path and every list of pairs with distinct
keys, of any bytes: the request line that a client writes for them is accepted, and the method,
the path and the query parameters that are read from it are those.
SOURCE: http/http_server.cpp:26-90 -/
theorem parse_inverts_encoding (style : UriStyle) (method path : Bytes)
    (params : List (Bytes × Bytes)) (hmethod : 0x20 ∉ method)
    (hkeys : (params.map Prod.fst).Nodup) :
    ∃ req, parseRequestLine (style.requestLine method path params) = some req ∧
      req.method = method ∧ req.path = path ∧
      ∀ k v, req.queryParams.lookup k = some v ↔ (k, v) ∈ params := by
  let req : HttpRequest :=
    { method := method, path := path
      queryParams := params.foldl (fun m kv => m.insert kv.1 kv.2) ∅ }
  refine ⟨req, ?_, rfl, rfl, lookup_foldl_pairs hkeys⟩
  rw [UriStyle.requestLine, parseRequestLine, findSub_split hmethod]
  simp only [Option.bind_eq_bind, Option.bind_some, drop_split, List.take_left,
    findSub_split (space_notMem_uri style path params), parseUri_uri]
  rfl

/-- A path with a space and a `%`, and pairs with an empty key, an empty value and an escape at
the end of the line. -/
theorem parse_inverts_encoding_escapes :
    ∃ req, parseRequestLine (ascii "GET /a%20b%25?=x&%2b=&k=%3d HTTP/1.1") = some req ∧
      req.method = ascii "GET" ∧ req.path = ascii "/a b%" ∧
      ∀ k v, req.queryParams.lookup k = some v ↔
        (k, v) ∈ [([], ascii "x"), (ascii "+", []), (ascii "k", ascii "=")] := by
  have hline : UriStyle.requestLine { hexCase := .lower } (ascii "GET") (ascii "/a b%")
      [([], ascii "x"), (ascii "+", []), (ascii "k", ascii "=")] =
        ascii "GET /a%20b%25?=x&%2b=&k=%3d HTTP/1.1" := by decide
  rw [← hline]
  exact parse_inverts_encoding _ _ _ _ (by decide) (by decide)

end StrikeMQ.Analysis.RequestTarget
