import TaskRelay.Proofs.Settings.Nodes
import TaskRelay.Server.Label

/-!
# Labels tell nothing of credentials

The label of a server is the front of its URL up to the first `://`, the mask, and what stands
behind the last `@`. Whatever stands between a scheme and an `@` is left out, so URLs that
differ in their credentials only have one label. The marks are made of characters of one byte
each, so they are at the same places among the bytes of a URL, and no character is cut there.
-/

set_option autoImplicit false

namespace TaskRelay

open Text
open Json (Bytes bytes bytes_append bytes_cons bytes_cut bytes_cut_text bytes_front
  bytes_length_le_iff toUTF8_bytes utf8_bytes)

section
variable {α : Type}

structure FirstAt (mark cs front : List α) : Prop where
  there : front ++ mark <+: cs
  first : ∀ s, s ++ mark <+: cs → front.length ≤ s.length

variable {mark cs front : List α}

/-- What is found in one list is found in any other that starts the same. -/
theorem FirstAt.again {ds : List α} (h : FirstAt mark cs front) (hd : front ++ mark <+: ds) :
    FirstAt mark ds front := by
  refine ⟨hd, fun s hs => ?_⟩
  by_contra hlt
  have hle : (s ++ mark).length ≤ (front ++ mark).length := by
    rw [List.length_append, List.length_append]
    omega
  exact hlt (h.first s ((List.prefix_of_prefix_length_le hs hd hle).trans h.there))

theorem FirstAt.unique {other : List α} (h : FirstAt mark cs front) (h' : FirstAt mark cs other) :
    other = front := by
  have hl : other.length = front.length := Nat.le_antisymm (h'.first _ h.there) (h.first _ h'.there)
  have hp := (List.prefix_append other mark).trans h'.there
  have hq := (List.prefix_append front mark).trans h.there
  exact (List.prefix_of_prefix_length_le hp hq hl.le).eq_of_length hl

end

def schemeMark : List Char := [':', '/', '/']

theorem schemeMark_ne_nil : schemeMark ≠ [] := List.cons_ne_nil _ _

theorem schemeMark_ascii : ∀ c ∈ schemeMark, c.toNat < 0x80 := by simp [schemeMark]

theorem hostPart?_eq (cs : List Char) : hostPart? cs = (cutLast '@' cs).map Prod.snd := by
  induction cs with
  | nil => rfl
  | cons c cs ih =>
    rw [hostPart?, cutLast, ih]
    cases cutLast '@' cs with
    | some p => rfl
    | none =>
      by_cases hc : c = '@'
      · simp [hc]
      · simp [hc]

theorem hostPart?_some_iff {cs host : List Char} :
    hostPart? cs = some host ↔ ∃ before, cs = before ++ '@' :: host ∧ '@' ∉ host := by
  rw [hostPart?_eq]
  constructor
  · intro h
    obtain ⟨⟨before, host⟩, hc, rfl⟩ := Option.map_eq_some_iff.mp h
    exact ⟨before, cutLast_eq_some_iff.mp hc⟩
  · rintro ⟨before, he, hn⟩
    rw [cutLast_eq_some_iff.mpr ⟨he, hn⟩]
    rfl

/-- What stands behind the last `@` does not depend on what stands in front of another. -/
theorem hostPart?_append (before rest : List Char) :
    hostPart? (before ++ '@' :: rest) = some ((hostPart? rest).getD rest) := by
  cases h : hostPart? rest with
  | some host =>
    obtain ⟨middle, rfl, hn⟩ := hostPart?_some_iff.mp h
    exact hostPart?_some_iff.mpr ⟨before ++ '@' :: middle, by simp, hn⟩
  | none =>
    rw [hostPart?_eq, Option.map_eq_none_iff, cutLast_eq_none_iff] at h
    exact hostPart?_some_iff.mpr ⟨before, rfl, h⟩

theorem FirstAt.scheme {scheme : List Char} (h : ':' ∉ scheme) (rest : List Char) :
    FirstAt schemeMark (scheme ++ (schemeMark ++ rest)) scheme := by
  refine ⟨by rw [← List.append_assoc]; exact List.prefix_append _ _, fun s hs => ?_⟩
  by_contra hlt
  have hp : s ++ [':'] <+: scheme := by
    have hc : [':'] <+: schemeMark := by decide
    apply List.prefix_of_prefix_length_le (((List.prefix_append_right_inj s).mpr hc).trans hs)
    · exact List.prefix_append scheme _
    · rw [List.length_append, List.length_singleton]
      omega
  exact h (hp.subset (List.mem_append_right s List.mem_cons_self))

/-- A text is found up to its first mark, if it has one. -/
theorem schemePart?_cases (cs : List Char) :
    (∃ scheme, schemePart? cs = some (scheme ++ schemeMark) ∧ FirstAt schemeMark cs scheme) ∨
      schemePart? cs = none ∧ ∀ s, ¬ s ++ schemeMark <+: cs := by
  induction cs using schemePart?.induct with
  | case1 rest =>
    exact Or.inl ⟨[], rfl, List.prefix_append _ rest, fun s _ => Nat.zero_le _⟩
  | case2 c cs hc ih =>
    have hs (s : List Char) (h : s ++ schemeMark <+: c :: cs) :
        ∃ t, s = c :: t ∧ t ++ schemeMark <+: cs := by
      cases s with
      | nil =>
        obtain ⟨rest, hr⟩ := h
        obtain ⟨he, ht⟩ := List.cons.inj hr
        exact absurd ht.symm (hc rest he.symm)
      | cons d t =>
        obtain ⟨rfl, ht⟩ := List.cons_prefix_cons.mp h
        exact ⟨t, rfl, ht⟩
    rw [schemePart?]
    · rcases ih with ⟨scheme, hp, hf⟩ | ⟨hp, hn⟩
      · refine Or.inl ⟨c :: scheme, by rw [hp]; rfl, ?_, fun s h => ?_⟩
        · exact List.cons_prefix_cons.mpr ⟨rfl, hf.there⟩
        · obtain ⟨t, rfl, ht⟩ := hs s h
          exact Nat.succ_le_succ (hf.first t ht)
      · refine Or.inr ⟨by rw [hp]; rfl, fun s h => ?_⟩
        obtain ⟨t, -, ht⟩ := hs s h
        exact hn t ht
    · exact hc
  | case3 =>
    refine Or.inr ⟨rfl, fun s h => ?_⟩
    simp [schemeMark] at h

theorem schemePart?_some_iff {cs found : List Char} :
    schemePart? cs = some found ↔ ∃ scheme, found = scheme ++ schemeMark ∧
      FirstAt schemeMark cs scheme := by
  rcases schemePart?_cases cs with ⟨scheme, hp, hf⟩ | ⟨hp, hn⟩
  · rw [hp]
    constructor
    · intro h
      cases h
      exact ⟨scheme, rfl, hf⟩
    · rintro ⟨other, rfl, ho⟩
      rw [hf.unique ho]
  · rw [hp]
    constructor
    · intro h
      cases h
    · rintro ⟨scheme, -, hf⟩
      exact absurd hf.there (hn scheme)

section
variable {α : Type}

/-- Where a URL is cut for its label: `scheme` stands before the first end of a scheme, and
`host` behind the last `@`. -/
structure Cuts (mark : List α) (sep : α) (url scheme host : List α) : Prop where
  scheme : FirstAt mark url scheme
  host : ∃ before, url = before ++ sep :: host ∧ sep ∉ host

end

section
variable {url : String} {scheme host : List Char}

theorem serverLabel_of_cuts (h : Cuts schemeMark '@' url.toList scheme host) :
    serverLabel url = String.ofList (scheme ++ schemeMark) ++ mask ++ String.ofList host := by
  rw [serverLabel, schemePart?_some_iff.mpr ⟨scheme, rfl, h.scheme⟩,
    hostPart?_some_iff.mpr h.host]

theorem serverLabel_uncut (h : ¬ ∃ scheme host, Cuts schemeMark '@' url.toList scheme host) :
    serverLabel url = url := by
  unfold serverLabel
  split
  · next hs hh =>
    obtain ⟨scheme, -, hf⟩ := schemePart?_some_iff.mp hs
    exact absurd ⟨scheme, _, hf, hostPart?_some_iff.mp hh⟩ h
  · rfl

/-- The label of a URL is cut at the same places as the URL. -/
theorem Cuts.again (h : Cuts schemeMark '@' url.toList scheme host) :
    Cuts schemeMark '@' (serverLabel url).toList scheme host := by
  have hl : (serverLabel url).toList =
      scheme ++ schemeMark ++ ("***:***".toList ++ '@' :: host) := by
    rw [serverLabel_of_cuts h]
    simp [mask]
  obtain ⟨before, -, hn⟩ := h.host
  rw [hl]
  refine ⟨h.scheme.again (List.prefix_append _ _), ?_⟩
  exact ⟨scheme ++ schemeMark ++ "***:***".toList, by simp, hn⟩

end

theorem serverLabel_again (url : String) : serverLabel (serverLabel url) = serverLabel url := by
  by_cases h : ∃ scheme host, Cuts schemeMark '@' url.toList scheme host
  · obtain ⟨scheme, host, hc⟩ := h
    rw [serverLabel_of_cuts hc.again, serverLabel_of_cuts hc]
  · rw [serverLabel_uncut h, serverLabel_uncut h]

/-- The label of a URL with credentials is made of the scheme and of what stands behind them. -/
theorem serverLabel_masks (url : String) {scheme : List Char} (hs : ':' ∉ scheme)
    (secret rest : List Char)
    (hu : url.toList = scheme ++ schemeMark ++ secret ++ '@' :: rest) :
    serverLabel url = String.ofList (scheme ++ schemeMark) ++ mask ++
      String.ofList ((hostPart? rest).getD rest) := by
  apply serverLabel_of_cuts
  rw [hu]
  constructor
  · rw [List.append_assoc, List.append_assoc]
    exact FirstAt.scheme hs _
  · exact hostPart?_some_iff.mp (hostPart?_append _ rest)

namespace ConnectionSettings

def withCredentials (c : ConnectionSettings) (user pass : Option String) : ConnectionSettings :=
  { c with username := user, password := pass }

def addressLabel (c : ConnectionSettings) (addr : List Char) : String :=
  (if c.tls then "rediss://" else "redis://") ++ mask ++
    String.ofList ((hostPart? (c.target addr)).getD (c.target addr))

variable {c : ConnectionSettings} {user pass : Option String}

theorem serverLabel_nodeUrl {addr : List Char} {url : String} (hs : user ≠ none ∨ pass ≠ none)
    (h : (c.withCredentials user pass).nodeUrl addr = .ok url) :
    serverLabel url = c.addressLabel addr := by
  obtain ⟨rest, hu, -, hr⟩ := nodeUrl_leads h
  obtain ⟨name, secret, hc, -⟩ := hr hs
  have he : rest = (name ++ ':' :: secret) ++ '@' :: c.target addr := Text.eq_of_cutFirst hc
  have hscheme : ∃ scheme : List Char, ':' ∉ scheme ∧
      (if c.tls then "rediss://" else "redis://") = String.ofList (scheme ++ schemeMark) := by
    cases c.tls
    · exact ⟨"redis".toList, by decide, rfl⟩
    · exact ⟨"rediss".toList, by decide, rfl⟩
  obtain ⟨scheme, hn, hm⟩ := hscheme
  have ht : url.toList = scheme ++ schemeMark ++ (name ++ ':' :: secret) ++
      '@' :: c.target addr := by
    rw [hu, he]
    show String.toList (if c.tls then "rediss://" else "redis://") ++ _ = _
    rw [hm, String.toList_ofList]
    simp
  rw [serverLabel_masks url hn _ _ ht, addressLabel, hm]

theorem map_serverLabel {urls : List String} (hu : c.url = none)
    (hs : user ≠ none ∨ pass ≠ none)
    (h : (c.withCredentials user pass).nodeUrls = .ok urls) :
    urls.map serverLabel = c.addresses.map c.addressLabel := by
  obtain ⟨-, -, hall⟩ := nodeUrls_addresses (c := c.withCredentials user pass) hu h
  have he : List.Forall₂ (fun addr url => serverLabel url = c.addressLabel addr)
      c.addresses urls := hall.imp fun addr url hurl => serverLabel_nodeUrl hs hurl
  rw [← List.forall₂_eq_eq_eq, List.forall₂_map_left_iff, List.forall₂_map_right_iff]
  exact he.flip

end ConnectionSettings

section
variable {cs : List Char} {front behind : Bytes}

/-- The bytes of the first mark are those of the first mark among the characters. -/
theorem FirstAt.ofBytes (h : FirstAt (bytes schemeMark) (bytes cs) front) :
    ∃ scheme, bytes scheme = front ∧ FirstAt schemeMark cs scheme := by
  obtain ⟨rest, hr⟩ := h.there
  rw [List.append_assoc] at hr
  obtain ⟨scheme, after, hc, hf, -⟩ :=
    bytes_cut_text cs schemeMark_ne_nil schemeMark_ascii hr.symm
  have hp : scheme <+: cs := hc ▸ List.prefix_append _ _
  refine ⟨scheme, hf, ⟨after, by rw [hc, List.append_assoc]⟩, fun s hs => ?_⟩
  have hb : bytes s ++ bytes schemeMark <+: bytes cs := by
    rw [← bytes_append]
    exact bytes_front hs
  apply (bytes_length_le_iff hp ((List.prefix_append s _).trans hs)).mp
  rw [hf]
  exact h.first _ hb

theorem FirstAt.toBytes {scheme : List Char} (h : FirstAt schemeMark cs scheme) :
    FirstAt (bytes schemeMark) (bytes cs) (bytes scheme) := by
  have hp : scheme <+: cs := (List.prefix_append _ _).trans h.there
  refine ⟨by rw [← bytes_append]; exact bytes_front h.there, fun s hs => ?_⟩
  obtain ⟨rest, hr⟩ := hs
  rw [List.append_assoc] at hr
  obtain ⟨before, after, hc, rfl, -⟩ :=
    bytes_cut_text cs schemeMark_ne_nil schemeMark_ascii hr.symm
  have hb : before ++ schemeMark <+: cs := ⟨after, by rw [hc, List.append_assoc]⟩
  exact (bytes_length_le_iff hp ((List.prefix_append _ _).trans hb)).mpr (h.first _ hb)

theorem mem_bytes_at {cs : List Char} (h : '@' ∈ cs) : (0x40 : UInt8) ∈ bytes cs :=
  List.mem_flatMap.mpr ⟨'@', h, by decide⟩

/-- The places where the bytes of a text are cut are places between characters. -/
theorem Cuts.ofBytes (h : Cuts (bytes schemeMark) 0x40 (bytes cs) front behind) :
    ∃ scheme host, bytes scheme = front ∧ bytes host = behind ∧
      Cuts schemeMark '@' cs scheme host := by
  obtain ⟨scheme, hf, hs⟩ := h.scheme.ofBytes
  obtain ⟨before, hb, hn⟩ := h.host
  obtain ⟨b, host, hc, -, rfl⟩ := bytes_cut (by decide) hb
  exact ⟨scheme, host, hf, rfl, hs, b, hc, fun hm => hn (mem_bytes_at hm)⟩

theorem Cuts.toBytes {scheme host : List Char} (h : Cuts schemeMark '@' cs scheme host) :
    Cuts (bytes schemeMark) 0x40 (bytes cs) (bytes scheme) (bytes host) := by
  obtain ⟨before, hb, hn⟩ := h.host
  refine ⟨h.scheme.toBytes, bytes before, ?_, fun hm => ?_⟩
  · rw [hb, bytes_append, bytes_cons]
    rfl
  · obtain ⟨s, t, hst⟩ := List.append_of_mem hm
    obtain ⟨b, a, rfl, -⟩ := bytes_cut (by decide) hst
    exact hn (List.mem_append_right b List.mem_cons_self)

end

theorem serverLabel_bytes {url : String} {front behind : Bytes}
    (h : Cuts (bytes schemeMark) 0x40 url.toUTF8.toList front behind) :
    ∃ scheme host : String, scheme.toUTF8.toList = front ++ bytes schemeMark ∧
      host.toUTF8.toList = behind ∧ serverLabel url = scheme ++ mask ++ host := by
  rw [utf8_bytes] at h
  obtain ⟨scheme, host, rfl, rfl, hc⟩ := h.ofBytes
  refine ⟨String.ofList (scheme ++ schemeMark), String.ofList host, ?_, toUTF8_bytes host,
    serverLabel_of_cuts hc⟩
  rw [toUTF8_bytes, bytes_append]

theorem serverLabel_bytes_uncut {url : String}
    (h : ¬ ∃ front behind, Cuts (bytes schemeMark) 0x40 url.toUTF8.toList front behind) :
    serverLabel url = url := by
  apply serverLabel_uncut
  rintro ⟨scheme, host, hc⟩
  apply h
  rw [utf8_bytes]
  exact ⟨bytes scheme, bytes host, hc.toBytes⟩

/-- URLs that differ only in the credentials have one label, and so have the nodes of settings
that do. A label is its own label. It is made of the bytes of the URL up to the first `://` and
behind the last `@`, both of which are whole texts; without these marks it is the URL. -/
theorem labels_hide_credentials :
    (∀ scheme user user' rest : String, ':' ∉ scheme.toList →
      serverLabel (scheme ++ "://" ++ user ++ "@" ++ rest) =
        serverLabel (scheme ++ "://" ++ user' ++ "@" ++ rest)) ∧
    (∀ (c : ConnectionSettings) (user pass user' pass' : Option String)
      (urls urls' : List String), c.url = none →
      (user ≠ none ∨ pass ≠ none) → (user' ≠ none ∨ pass' ≠ none) →
      (c.withCredentials user pass).nodeUrls = .ok urls →
      (c.withCredentials user' pass').nodeUrls = .ok urls' →
      urls.map serverLabel = urls'.map serverLabel) ∧
    (∀ url, serverLabel (serverLabel url) = serverLabel url) ∧
    (∀ (url : String) (front behind : Bytes),
      Cuts (bytes schemeMark) 0x40 url.toUTF8.toList front behind →
      ∃ scheme host : String, scheme.toUTF8.toList = front ++ bytes schemeMark ∧
        host.toUTF8.toList = behind ∧ serverLabel url = scheme ++ mask ++ host) ∧
    (∀ url : String,
      (¬ ∃ front behind, Cuts (bytes schemeMark) 0x40 url.toUTF8.toList front behind) →
      serverLabel url = url) := by
  refine ⟨fun scheme user user' rest hs => ?_, ?_, serverLabel_again,
    fun _ _ _ => serverLabel_bytes, fun _ => serverLabel_bytes_uncut⟩
  · have h (u : String) := serverLabel_masks (scheme ++ "://" ++ u ++ "@" ++ rest) hs
      u.toList rest.toList (by simp [schemeMark])
    rw [h user, h user']
  · intro c user pass user' pass' urls urls' hu hs hs' h h'
    rw [ConnectionSettings.map_serverLabel hu hs h, ConnectionSettings.map_serverLabel hu hs' h']

/-- Credentials that hold both marks and characters of several bytes, in front of an address that
holds another `@`. -/
theorem marked_labels :
    let c : ConnectionSettings := { ConnectionSettings.default with addr := "ö@cache:6379" }
    let url := "redis://a@b://ä:ß@cache:6379"
    serverLabel url = serverLabel "redis://:@cache:6379" ∧
    Cuts (bytes schemeMark) 0x40 url.toUTF8.toList "redis".toUTF8.toList
      "cache:6379".toUTF8.toList ∧
    (∃ scheme host : String,
      scheme.toUTF8.toList = "redis".toUTF8.toList ++ bytes schemeMark ∧
      host.toUTF8.toList = "cache:6379".toUTF8.toList ∧
      serverLabel url = scheme ++ mask ++ host) ∧
    ∃ urls urls',
      (c.withCredentials (some "a@b://") none).nodeUrls = .ok urls ∧
      (c.withCredentials none (some "ß")).nodeUrls = .ok urls' ∧
      urls ≠ urls' ∧ urls.map serverLabel = urls'.map serverLabel := by
  intro c url
  obtain ⟨hl, hn, -, hb, -⟩ := labels_hide_credentials
  have hc : Cuts (bytes schemeMark) 0x40 url.toUTF8.toList "redis".toUTF8.toList
      "cache:6379".toUTF8.toList := by
    have hu : url.toList =
        "redis".toList ++ (schemeMark ++ "a@b://ä:ß@cache:6379".toList) := by decide +kernel
    have h : Cuts schemeMark '@' url.toList "redis".toList "cache:6379".toList := by
      rw [hu]
      refine ⟨FirstAt.scheme (by decide) _, "redis://a@b://ä:ß".toList, ?_, by decide⟩
      decide +kernel
    rw [utf8_bytes, utf8_bytes, utf8_bytes]
    exact h.toBytes
  have h : (c.withCredentials (some "a@b://") none).nodeUrls =
      .ok ["redis://a%40b%3A%2F%2F:@ö@cache:6379"] := by decide +kernel
  have h' : (c.withCredentials none (some "ß")).nodeUrls =
      .ok ["redis://:%C3%9F@ö@cache:6379"] := by decide +kernel
  refine ⟨hl "redis" "a@b://ä:ß" ":" "cache:6379" (by decide), hc, hb url _ _ hc, _, _, h, h',
    by decide +kernel, ?_⟩
  exact hn c _ _ _ _ _ _ rfl (Or.inl (by decide)) (Or.inr (by decide)) h h'

end TaskRelay
