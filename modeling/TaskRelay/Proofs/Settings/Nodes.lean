import TaskRelay.Proofs.Text.Cuts
import TaskRelay.Proofs.Text.Percent
import TaskRelay.Proofs.Traversal
import TaskRelay.Server.Endpoint

/-!
# URLs of the nodes

The addresses among the settings are the pieces between commas that are not blank, each without
the blanks around it. Every one of them leads to a URL of its own: the transport, the credentials
if there are any, the address as it is, the database and the mark of unchecked certificates.
The credentials are written so that they end at the first `@` and are parted by the only colon,
and decoded they are what they were.
-/

set_option autoImplicit false

namespace TaskRelay.ConnectionSettings

open Text

variable {c : ConnectionSettings}

theorem decoded_percentEncode (s : String) :
    Endpoint.decoded? (percentEncode s).toList = some s := by
  rw [Endpoint.decoded?, String.ofList_toList, percentDecode_percentEncode]
  exact Json.fromUTF8_eq_some_iff.mpr rfl

/-- The two halves of credentials, which decode to a name and a password, with the only colon
between them. -/
structure Credentials (name pass : String) (user secret : List Char) : Prop where
  encoded : ∀ ch ∈ user ++ secret, isEncoded ch = true
  parted : (user ++ ':' :: secret).count ':' = 1
  name : Endpoint.decoded? user = some name
  pass : Endpoint.decoded? secret = some pass

theorem not_mem_encoded {cs : List Char} (h : ∀ ch ∈ cs, isEncoded ch = true) {ch : Char}
    (hc : isEncoded ch = false) : ch ∉ cs := by
  intro hm
  rw [h ch hm] at hc
  cases hc

theorem Credentials.closed {name pass : String} {user secret : List Char}
    (h : Credentials name pass user secret) : '@' ∉ user ++ ':' :: secret := by
  have ha := not_mem_encoded h.encoded (show isEncoded '@' = false from rfl)
  simpa using ha

theorem credentials_encoded (name pass : String) :
    Credentials name pass (percentEncode name).toList (percentEncode pass).toList := by
  have he : ∀ ch ∈ (percentEncode name).toList ++ (percentEncode pass).toList,
      isEncoded ch = true := by
    intro ch h
    rcases List.mem_append.mp h with h | h
    · exact isEncoded_percentEncode name ch h
    · exact isEncoded_percentEncode pass ch h
  refine ⟨he, ?_, decoded_percentEncode name, decoded_percentEncode pass⟩
  have h := List.count_eq_zero_of_not_mem (not_mem_encoded he (show isEncoded ':' = false from rfl))
  rw [List.count_append] at h
  rw [List.count_append, List.count_cons_self]
  omega

def target (c : ConnectionSettings) (addr : List Char) : List Char :=
  addr ++ (if c.cluster = false ∧ c.db ≠ 0 then '/' :: (toString c.db).toList else []) ++
    if c.tls = true ∧ c.tlsInsecure = true then "#insecure".toList else []

def Leads (c : ConnectionSettings) (addr : List Char) (url : String) : Prop :=
  ∃ rest, url.toList = (if c.tls then "rediss://" else "redis://").toList ++ rest ∧
    (c.username = none ∧ c.password = none → rest = c.target addr) ∧
    (c.username ≠ none ∨ c.password ≠ none → ∃ user secret,
      cutFirst '@' rest = some (user ++ ':' :: secret, c.target addr) ∧
      Credentials (c.username.getD "") (c.password.getD "") user secret)

theorem userinfo_none (hu : c.username = none) (hp : c.password = none) : c.userinfo = "" := by
  rw [userinfo, hu, hp]

theorem userinfo_some (h : c.username ≠ none ∨ c.password ≠ none) :
    c.userinfo = percentEncode (c.username.getD "") ++ ":" ++
      percentEncode (c.password.getD "") ++ "@" := by
  rw [userinfo]
  cases hu : c.username <;> cases hp : c.password <;> simp_all

theorem nodeUrl_leads {addr : List Char} {url : String} (h : c.nodeUrl addr = .ok url) :
    c.Leads addr url := by
  have ht : addr ++ c.databasePath.toList ++ c.insecureMark.toList = c.target addr := by
    rw [target, databasePath, insecureMark]
    cases c.cluster <;> cases c.tls <;> cases c.tlsInsecure <;> by_cases hd : c.db = 0 <;> simp [hd]
  unfold nodeUrl at h
  split at h
  · cases h
    refine ⟨c.userinfo.toList ++ c.target addr, ?_, ?_, ?_⟩
    · rw [← ht]
      cases c.tls <;> simp
    · rintro ⟨hu, hp⟩
      simp [userinfo_none hu hp]
    · intro hs
      have hc := credentials_encoded (c.username.getD "") (c.password.getD "")
      refine ⟨_, _, ?_, hc⟩
      rw [userinfo_some hs]
      simpa using cutFirst_append hc.closed (c.target addr)
  · cases h

theorem addresses_eq (c : ConnectionSettings) :
    c.addresses =
      ((pieces ',' c.addr.toList).filter fun p => !p.all isBlank).map trimChars := by
  rw [addresses, List.filter_map]
  congr 1
  refine List.filter_congr fun p _ => ?_
  have h : (trimChars p).isEmpty = p.all isBlank := by
    rw [Bool.eq_iff_iff, List.isEmpty_iff, trimChars_eq_nil, List.all_eq_true]
  rw [Function.comp_apply, h]

theorem nodeUrls_addresses {urls : List String} (hu : c.url = none) (h : c.nodeUrls = .ok urls) :
    c.addresses ≠ [] ∧ (c.cluster = false → c.addresses.length = 1) ∧
      List.Forall₂ (fun addr url => c.nodeUrl addr = .ok url) c.addresses urls := by
  rw [nodeUrls, hu] at h
  simp only at h
  split at h
  · cases h
  · next hn =>
    split at h
    · cases h
    · next hl =>
      have hne : c.addresses ≠ [] := fun he => hn (List.isEmpty_iff.mpr he)
      refine ⟨hne, fun hc => ?_, mapM_ok_iff.mp h⟩
      have hpos := List.length_pos_iff.mpr hne
      simp only [hc, Bool.not_false, and_true, Nat.not_lt] at hl
      omega

/-- Without a URL of their own, settings that are accepted lead to one URL for each address that
is not blank, in order. Outside a cluster that is one, and connecting goes on with it. -/
theorem urls_of_addresses {urls : List String} (hu : c.url = none) (h : c.nodeUrls = .ok urls) :
    (∃ pieces : List (List Char), joined ',' pieces = c.addr.toList ∧ (∀ p ∈ pieces, ',' ∉ p) ∧
      List.Forall₂ (fun p url => ∃ addr, Trims p addr ∧ c.Leads addr url)
        (pieces.filter fun p => !p.all isBlank) urls) ∧
    urls ≠ [] ∧
    (c.cluster = false → ∃ url, urls = [url] ∧ c.endpoints =
      match Endpoint.ofUrl url with
      | .ok e => .ok [e]
      | .error f => .error (.config ("Invalid Redis URL: " ++ f.message))) := by
  obtain ⟨hne, hone, hall⟩ := nodeUrls_addresses hu h
  have hlen := hall.length_eq
  refine ⟨⟨pieces ',' c.addr.toList, joined_pieces ',' _, fun p => not_mem_pieces, ?_⟩, ?_, ?_⟩
  · rw [addresses_eq, List.forall₂_map_left_iff] at hall
    exact hall.imp fun p url hp => ⟨trimChars p, trims_trimChars p, nodeUrl_leads hp⟩
  · rw [← List.length_pos_iff, ← hlen]
    exact List.length_pos_iff.mpr hne
  · intro hc
    obtain ⟨url, rfl⟩ := List.length_eq_one_iff.mp (hlen.symm.trans (hone hc))
    refine ⟨url, rfl, ?_⟩
    rw [endpoints, h]
    cases he : Endpoint.ofUrl url <;> simp [hc, he, bind, Except.bind]

def guarded : ConnectionSettings :=
  { default with
    addr := " cache:6380 , \t,", password := some "p@ss:w/ö%", db := -3, tls := true
    tlsInsecure := true }

theorem guarded_urls :
    let urls := ["rediss://:p%40ss%3Aw%2F%C3%B6%25@cache:6380/-3#insecure"]
    guarded.url = none ∧ guarded.nodeUrls = .ok urls ∧
      ∃ pieces : List (List Char), joined ',' pieces = guarded.addr.toList ∧
        List.Forall₂ (fun p url => ∃ addr, Trims p addr ∧ guarded.Leads addr url)
          (pieces.filter fun p => !p.all isBlank) urls := by
  intro urls
  have h : guarded.nodeUrls = .ok urls := by decide +kernel
  obtain ⟨⟨pieces, hj, -, hall⟩, -⟩ := urls_of_addresses (c := guarded) rfl h
  exact ⟨rfl, h, pieces, hj, hall⟩

end TaskRelay.ConnectionSettings
