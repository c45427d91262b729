import TaskRelay.Proofs.Settings.Nodes
import TaskRelay.Proofs.Text.Integers

/-!
# Addresses that are accepted

An address is accepted if it is a host, a colon and a port, where the port is a number of 16
bits that may have a plus sign in front, and the host is any text at all. The address goes into
a URL as it is. So a URL parser finds it there whole if the host is free of the characters that
end the authority of a URL or its credentials, and only then.
-/

set_option autoImplicit false

namespace TaskRelay

def endsAuthority (c : Char) : Bool := c == '/' || c == '?' || c == '#'

def behindScheme : List Char → List Char
  | ':' :: '/' :: '/' :: rest => rest
  | _ :: cs => behindScheme cs
  | [] => []

def authority (url : String) : List Char :=
  (behindScheme url.toList).takeWhile fun c => !endsAuthority c

theorem behindScheme_append (scheme : List Char) (h : ':' ∉ scheme) (rest : List Char) :
    behindScheme (scheme ++ ':' :: '/' :: '/' :: rest) = rest := by
  induction scheme with
  | nil => rfl
  | cons c cs ih =>
    obtain ⟨hc, hs⟩ := List.ne_and_not_mem_of_not_mem_cons h
    rw [List.cons_append, behindScheme, ih hs]
    rintro rest rfl
    exact absurd rfl hc

namespace ConnectionSettings

open Text

variable {c : ConnectionSettings} {addr : List Char}

structure Splits (addr host port : List Char) (n : Nat) : Prop where
  parted : addr = host ++ ':' :: port
  host : host ≠ []
  last : ':' ∉ port
  port : Writes port n
  fits : n ≤ maxU16

theorem isAddress_iff : isAddress addr = true ↔ ∃ host port n, Splits addr host port n := by
  constructor
  · intro h
    unfold isAddress at h
    split at h
    · next host port hc =>
      obtain ⟨he, hl⟩ := cutLast_eq_some_iff.mp hc
      rw [Bool.and_eq_true, Bool.not_eq_true', List.isEmpty_eq_false_iff] at h
      cases hn : natural maxU16 (String.ofList port) with
      | error f => simp [hn, Except.toOption] at h
      | ok n =>
        obtain ⟨hw, hle⟩ := natural_ok_iff.mp hn
        rw [String.toList_ofList] at hw
        exact ⟨host, port, n, he, h.1, hl, hw, hle⟩
    · cases h
  · rintro ⟨host, port, n, he, hh, hl, hw, hle⟩
    have hc : cutLast ':' addr = some (host, port) := cutLast_eq_some_iff.mpr ⟨he, hl⟩
    have hn : natural maxU16 (String.ofList port) = .ok n :=
      natural_ok_iff.mpr ⟨by rwa [String.toList_ofList], hle⟩
    simp [isAddress, hc, hn, hh, Except.toOption]

theorem isAddress_of_nodeUrl {url : String} (h : c.nodeUrl addr = .ok url) :
    isAddress addr = true := by
  unfold nodeUrl at h
  split at h
  · assumption
  · cases h

/-- What is kept of an address in front of something that ends the authority. -/
theorem takeWhile_before {rest : List Char} (hr : ∀ ch ∈ rest.head?, endsAuthority ch = true)
    (addr : List Char) :
    (addr ++ rest).takeWhile (fun ch => !endsAuthority ch) =
      addr.takeWhile fun ch => !endsAuthority ch := by
  induction addr with
  | nil =>
    cases rest with
    | nil => rfl
    | cons ch rest => simp [hr ch rfl]
  | cons ch addr ih => simp only [List.cons_append, List.takeWhile_cons, ih]

theorem takeWhile_target (c : ConnectionSettings) (addr : List Char) :
    (c.target addr).takeWhile (fun ch => !endsAuthority ch) =
      addr.takeWhile fun ch => !endsAuthority ch := by
  rw [target, List.append_assoc]
  apply takeWhile_before
  intro ch hc
  by_cases hd : c.cluster = false ∧ c.db ≠ 0
  · rw [if_pos hd] at hc
    cases hc
    rfl
  · by_cases hi : c.tls = true ∧ c.tlsInsecure = true
    · rw [if_neg hd, if_pos hi] at hc
      cases hc
      rfl
    · rw [if_neg hd, if_neg hi] at hc
      cases hc

theorem authority_of_nodeUrl {url : String} (hu : c.username = none) (hp : c.password = none)
    (h : c.nodeUrl addr = .ok url) :
    authority url = addr.takeWhile fun ch => !endsAuthority ch := by
  obtain ⟨rest, hl, hr, -⟩ := nodeUrl_leads h
  have hb : behindScheme url.toList = rest := by
    rw [hl]
    cases c.tls
    · exact behindScheme_append "redis".toList (by decide) rest
    · exact behindScheme_append "rediss".toList (by decide) rest
  rw [authority, hb, hr ⟨hu, hp⟩, takeWhile_target]

/-- An address that a URL parser finds again: it is all of the authority, it names no user, and
its port is made of digits. -/
structure Found (addr : List Char) (url : String) : Prop where
  whole : authority url = addr
  unnamed : '@' ∉ addr
  port : ∃ host port n, addr = host ++ ':' :: port ∧ ':' ∉ port ∧ Denotes port n ∧ n ≤ maxU16

theorem Splits.unique {host port host' port' : List Char} {n : Nat} (h : Splits addr host port n)
    (he : addr = host' ++ ':' :: port') (hl : ':' ∉ port') : host' = host ∧ port' = port := by
  have hc := cutLast_eq_some_iff.mpr ⟨h.parted, h.last⟩
  rw [cutLast_eq_some_iff.mpr ⟨he, hl⟩] at hc
  cases hc
  exact ⟨rfl, rfl⟩

theorem digit_plain {ch : Char} (h : ch.isDigit = true) :
    endsAuthority ch = false ∧ ch ≠ '@' := by
  have hne (x : Char) (hx : x.isDigit = false) : ch ≠ x := by
    rintro rfl
    rw [h] at hx
    cases hx
  refine ⟨?_, hne _ rfl⟩
  simp [endsAuthority, hne '/' rfl, hne '?' rfl, hne '#' rfl]

/-- An accepted address is found again if nothing in its host ends the authority or the
credentials and no plus sign stands in front of its port. -/
theorem Splits.found_iff {host port : List Char} {n : Nat} {url : String}
    (h : Splits addr host port n)
    (ha : authority url = addr.takeWhile fun ch => !endsAuthority ch) :
    Found addr url ↔
      (∀ ch ∈ host, endsAuthority ch = false ∧ ch ≠ '@') ∧ port.head? ≠ some '+' := by
  constructor
  · rintro ⟨hw, hn, host', port', m, he, hl, hd, -⟩
    obtain ⟨rfl, rfl⟩ := h.unique he hl
    rw [ha, List.takeWhile_eq_self_iff] at hw
    constructor
    · intro ch hc
      have hm : ch ∈ addr := by rw [h.parted]; exact List.mem_append_left _ hc
      refine ⟨by simpa using hw ch hm, ?_⟩
      rintro rfl
      exact hn hm
    · intro hp
      obtain ⟨ds, rfl⟩ := List.head?_eq_some_iff.mp hp
      exact hd.unsigned.1 rfl
  · rintro ⟨hh, hp⟩
    obtain ⟨ds, rfl | rfl, hd⟩ := h.port
    · have hall : ∀ ch ∈ addr, endsAuthority ch = false ∧ ch ≠ '@' := by
        rw [h.parted]
        intro ch hc
        rcases List.mem_append.mp hc with hc | hc
        · exact hh ch hc
        · rcases List.mem_cons.mp hc with rfl | hc
          · decide
          · exact digit_plain (hd.digits ch hc)
      refine ⟨?_, fun hm => (hall '@' hm).2 rfl, host, port, n, h.parted, h.last, hd, h.fits⟩
      rw [ha, List.takeWhile_eq_self_iff]
      intro ch hc
      rw [(hall ch hc).1]
      rfl
    · exact absurd rfl hp

/-- Every accepted address is a host and a port of 16 bits, and a URL without credentials has
the address in its authority as far as the address goes on without a slash, a question mark or
a number sign. It is found again exactly if its host has neither these nor an at sign, and its
port no plus sign. -/
theorem accepted_addresses {urls : List String} (hu : c.url = none) (hn : c.username = none)
    (hp : c.password = none) (h : c.nodeUrls = .ok urls) :
    List.Forall₂ (fun addr url => ∃ host port n, Splits addr host port n ∧
        authority url = (addr.takeWhile fun ch => !endsAuthority ch) ∧
        (Found addr url ↔
          (∀ ch ∈ host, endsAuthority ch = false ∧ ch ≠ '@') ∧ port.head? ≠ some '+'))
      c.addresses urls := by
  obtain ⟨-, -, hall⟩ := nodeUrls_addresses hu h
  refine hall.imp fun addr url hurl => ?_
  obtain ⟨host, port, n, hs⟩ := isAddress_iff.mp (isAddress_of_nodeUrl hurl)
  have ha := authority_of_nodeUrl hn hp hurl
  exact ⟨host, port, n, hs, ha, hs.found_iff ha⟩

def seeded : ConnectionSettings :=
  { default with
    addr := "10.0.0.1:7000, app@cache:+65535", cluster := true, tls := true, tlsInsecure := true }

theorem seeded_addresses :
    let urls := ["rediss://10.0.0.1:7000#insecure", "rediss://app@cache:+65535#insecure"]
    (seeded.url = none ∧ seeded.username = none ∧ seeded.password = none ∧
      seeded.nodeUrls = .ok urls) ∧
    List.Forall₂ (fun addr url => ∃ host port n, Splits addr host port n ∧
        (Found addr url ↔
          (∀ ch ∈ host, endsAuthority ch = false ∧ ch ≠ '@') ∧ port.head? ≠ some '+'))
      seeded.addresses urls := by
  intro urls
  have h : seeded.nodeUrls = .ok urls := by decide +kernel
  refine ⟨⟨rfl, rfl, rfl, h⟩, (accepted_addresses (c := seeded) rfl rfl rfl h).imp ?_⟩
  rintro addr url ⟨host, port, n, hs, -, hf⟩
  exact ⟨host, port, n, hs, hf⟩

/-- Addresses that are no host and port and are accepted all the same: one with a sign in its
port, which no URL may have, and one that is read as a user at a host. -/
theorem lenient_addresses :
    let signed : ConnectionSettings := { default with addr := "cache:+6379" }
    let named : ConnectionSettings := { default with addr := "app@cache:6379" }
    (signed.nodeUrls = .ok ["redis://cache:+6379"] ∧
      Endpoint.ofUrl "redis://cache:+6379" = .error .noUrl ∧
      ¬ Found "cache:+6379".toList "redis://cache:+6379") ∧
    (named.nodeUrls = .ok ["redis://app@cache:6379"] ∧
      (Endpoint.ofUrl "redis://app@cache:6379").toOption.bind Endpoint.username = some "app" ∧
      ¬ Found "app@cache:6379".toList "redis://app@cache:6379") ∧
    ¬ ∀ (c : ConnectionSettings) (urls : List String), c.url = none → c.username = none →
      c.password = none → c.nodeUrls = .ok urls → List.Forall₂ Found c.addresses urls := by
  intro signed named
  have hs : ¬ Found "cache:+6379".toList "redis://cache:+6379" := by
    rintro ⟨-, -, host, port, n, he, hl, hd, -⟩
    have hsplit : Splits "cache:+6379".toList "cache".toList "+6379".toList 6379 :=
      ⟨rfl, by decide, by decide,
        ⟨"6379".toList, Or.inr rfl, by decide, List.all_eq_true.mp rfl, by decide⟩, by decide⟩
    obtain ⟨-, rfl⟩ := hsplit.unique he hl
    exact hd.unsigned.1 rfl
  have hn : ¬ Found "app@cache:6379".toList "redis://app@cache:6379" :=
    fun h => h.unnamed (by decide)
  refine ⟨⟨by decide +kernel, by decide +kernel, hs⟩,
    ⟨by decide +kernel, by decide +kernel, hn⟩, ?_⟩
  intro hall
  have h := hall named ["redis://app@cache:6379"] rfl rfl rfl (by decide +kernel)
  have ha : named.addresses = ["app@cache:6379".toList] := by decide +kernel
  rw [ha] at h
  exact hn (List.forall₂_cons.mp h).1

end ConnectionSettings

end TaskRelay
