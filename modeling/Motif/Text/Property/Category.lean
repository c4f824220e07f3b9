import Motif.Text.Property.Named

/-!
# General categories

Every code point has one category. Many other properties say little more than that a character is in
one of some categories, and so they are written as their differences from these.
-/

namespace Motif.Text.Property

def categories : List Named := Named.table
  "cc control cntrl = A5cX6;
  cf format = e3Abl4FWAfMAbNAkYBcIAed5Ace2E0EbNEBJciwXAg7CepFAPAjrWPblh2Dfr9HbguyGA4cX;
  co privateuse = cjg6gv1blueAcsaNCcsaN;
  ll lowercaseletter = cZZbWAbFXBHBAAZBBBAAFBBBAAVCABABCCABACADBEACADCCACABABACABBBACADABACBCCGACACA
  BAAFBBBAAGBBCABADABAA0BGCACBBAEABAABBb6B0fNABADADCSA18BBDCBAAJBEBACACBbPbLBAAPJABAAYCABAADBBBAAbKb
  MbEdcHbGCCvEFciSIBAdJbHb1MB7c4ABAAb9BIBAAbKBIIFKHIHIFKHIHINCHIHIHIEBBGADCBBIDCBIHKCBBhWADBDA1AEAEA
  CBIDEAbRAcx5bLBADBBAABEABBBFFABAAbKBBHABAEAMbBBAFAbhc9ABAAUTABAALd1ABAADBCBAA3BHBABACABAACEABACABC
  BAAIFAFABAAFEABACADABAAD0ADAw3bGFIHcHvrUGMEbdVZbiFbDd29eLKBOBGBBbx5bOdRVdb45xkA5bbuSZ0GBR0Z0DBABGB
  K0ZAG012YBF0YBF0YBF0YBF0YBFBAbzIJBTGFcs57;
  lm modifierletter = tERELOEHABAdZAFAnKAgOAeUBhRBEA5AJADAeQAeXAbiMAdTApZAbw0Ac9Aq9Am6Fe4b0NA8bAtFAN
  AQMdgPBgZAfLAnBAbHEFAcZBcVCbej8Abi0FhSAdGA2BdNIcIAXAc7CDBnBAWAd3AdAAVBc5DJAwzSAbJBceAFBbFBIbnXA6Az
  rEDoECbEBpKMb2BBArnQDBGBBneZbZfVGbaFAbfDA;
  lo otherletter = e0APAhEAEDf2Aw90EDbJ5BJ9BBc0BAYBKCCAQAB33cQLAY6VVbGYHKFXBFRbEbXbRDASAHJQOEHCBCVBG
  BADDDAQANBBCOBKAIFEBCVBGBBAB5DBATCQIBCBVBGBBBEDASAPBXALHCBCVBGBBBEDA4BBCPARABFDCBDDBBABBDBDCDLWAbQ
  HBCBWBPDA0CCACB4AEHBCBWBJBEDA5BBBPBRIBCBbECAQAFCICYFFRDXBIBACGbWbLBBMFbXBBABEBXBABJBBJACEXD6Ab1HB9
  1EdHbGUAQFEDDADBHCEMMAdFjEBDCGBABDCbEBDC6BDCGBABDCOBbUBDCb4bBPdFrHCQBZFcCGHHRNSOROMBCPbPbEAb58BbQH
  EC7BAFb7K4bN3CELbHEZbSWJbQe6bKRHbS3NBKbH09bFCK3dFDBFBBDAbeCDdhDbTYWJGBGAFpLAbRAEcNIABcREAFbGBcVR5b
  MPoIhbDb2wlYBbf0b5bDIhPEPKBb4AbNb7eZAc5ADGBCBDBW3bPObNb0FDABBL1KWZ2HbKbJECIKEBbEXCBHUPBFDADbNBADBC
  ECABAYBDKHAOFCFCFJGBGeB83lyLMWEbMja2kFCc7b5ABJBMBEBABBBBBc97kCSb1CbRbELdIEBd0c7JBbIC4DFCFCFCC9LBZB
  SBBBOCN8dOk32DbMbL5NTBHGbBK3C9EHdUcFc0bDIbPcUbPMiWJVKHeIFCABbHBBDACWKWJ4b3SBBKVKZb8bTGBb2APDBCB2bG
  2D29HB11bRKVKSNRdCcAfD9bCDBAiQbFGBQCbX2KAIVbGRbKU1WMbQbVBCANbI6Y093ACAI8DAMbLODVABA9RBYTBb1GBABDBO
  BJHbKbCHCBCVBGBBBEDASAME4JBACABbBBAZABAbIbQSDUC4bLUBBAfEbKbFDbAbLUAbXbGNAb90bBGfFbHf5HCACHBBBXPABA
  cWHCbCQABA2AKbDHAVALbJTAScAfT65IBbARAbN3dEGBBBbBVAZFBBB5OAjDSPABMB7dQAcHzVgOfPcvIcYPbd1RFZeg8FqGhi
  B3bw8p2H4RcGR3SbLbPUFSmDbDlJcCFAe5goPIbiNbFJjoXiCPA3CCAODIk9cmEc8FMDIHJjk6An7bI7Ai73SbHnQ0gN3CAn1G
  BDBBBOBfQblHDB0BBBACABJBDBABAGAEABABABCBBBACABAACBBBACDBGBDBDBABJBQFCBEBQes2btqX6elNGgFCgeBOhzUPrJ
  cqSpBbp4fhGFemP;
  lt titlecaseletter = mVACACAbCAicNHIHIHMAPAbLA;
  lu uppercaseletter = b3Zc3WBG7ABAAZCABAAFCABAAUBBBABADBBABBBCCDBBBCDBBBBABABBBACABBBCBABBDAHACAABB
  AAFCABAAGCACABCBAA1HBBBCABDBAACiBABADAIAGABCBABBBQBI9ACCDABAAJFACABBCbObMABAAOJABAAYBBBAAECABAAbJC
  bBdcJbBBAFAuCcNci9AGbGCCi6ABAAcAJABAAbKJHIFKHIHIFLABAABIHcADMDMDMELDhKAEADCCCCADEGABABABDCDKBFAbZA
  cwUbLbMABCCABABABDBACAICBAAbLIABAEAbheVABAAUTABAALd1ABAAEDABAA2KABABBBAACEABACABADABAAHBEBEBAAFBDB
  ABBDAFABAABYAxv5Zbh7bDd29eMKBOBGBBbxGbOeNVdb45xkA5bbuYZ0Z0Z0ABBCACBCDBH0Z0BBDCHBG1BBDBEBADG1Z0ZAD4
  Y7YAC7AesN7;
  mc spacingmark = cmDAbTACCIDBBbOBbWCGBCBKAbHAbWCb4AbWCIABBbRBbWABAGBCBKAc4BBBDCBCKAbFCbZDbZBbWABEC
  BBBJB2AOBbWCFCBCKAbGBcDCGHSBjGBb1Ae1BEAGACBZBKCCGVBCFCAKCbuAA4AdVAHHBBjWDCCEBBFgIBbWABAJABBIFeBAbM
  AFABEBBbZA4AEBCAbYACCBADBbMHIBe1AVAfgWBbgu9BCAcQBbOPd8BbLAbMBEBCCdCBCBYAbJABAdBACBFAgVBBBBBBAbbjXA
  BAdTAbJCEBdHAYBbXAbMCJBNAcVCDBBAe0C5BbWBBDCBCCJAKBcMCHACABDBBBAc3CIBDAc8CGABDCAgVCGDCAdFCIBBAdBABB
  GAc5ABBEAhJCJAg5FBBEACABAd8CIDEAcMA3Bb0AlLAOAc8AHACAf7EEBBAj0BMAbMBIBBAsaYCdwUbSc6Bbaq9BGF;
  me enclosingmark = bgIBgb6AbrSDBCbknXC;
  mn nonspacingmark = vMdDhXEhNbIBABBBBBAcAKbMUQAc3GCFCBBD9A40cTKbWIJAYDBIBCBEbHCbXIbGXB5bTABAEHEADG
  KB3AbWAEDIAUB0ACBbVAEBEBCCDA4BDALBbVAEEBBEAUBWFBAbWACABDIAHBLB4AbZAMAbOADAbTABCFCBDHBLB3AbWACAGAFB
  UB2BbVBEDIAUB3AcAAHCBAcSACGMHc0ACILGcBB1ABABAbTNBEBBFKB9JAc4DBFBBCBZBECQDNACBGAPAtTCbaKC3B4B4Bb2BB
  GIACKJAbJCBAdJB8AdKCEBJAGCgDBCAbWABGBABACHGJCAbMNBPbNDbMABEBAFAbEIMB6DCBBCbUABBDABCbWHCBeICBMBGEAG
  ADBfSb1uAMEADLdhKCd7AcY5pODc9Bbgf6AEJ6BcIBhUADAEAZBFAeHB0RNAbCHZKbKCbMACDCBbDAb5FCBCBMAIAbLAbPABCC
  BFBBAbGBIAgWACAEAvrEAuRPQPbbBAgKAeFEbuOCBBFDbECEAeVBp7Db3Ei3BcHDb8KbNDdPAbSObFACBKCbNDCBHAbZCbAEBH
  b0AMBbQIKDCAcXCCABBGACAeNADHVBbVBDAbBGDEb8FNABABAOBcNHCCBAXAcMFBAEBBBgWDGBBB1BcNHCABBc8ABACFBAc3AB
  ACDBEhHIBBhEBBAEAeADCBEA6JbEFCDIAJFCCbKMBBlKGBFBAcKVCGBBBBdOFDABBBGBAcABDABAjXBLBbQEFABAXAfsVAGOmg
  QLDCcrMEbXGbdEAb1DcJAuzUBfaZbJCWpECRHCG4DeECcc9bSEbNIAOAWEBObl2GBQCGBBBEc2AeQGkPAbZDoEDhCBuQGdBGbg
  or7gX;
  nd decimalnumber digit = bMJbr0Jd0JfSJlQJdKJAHcYJdKJb8Jh0Jb8Jbz0JbCJiMJdUJeWJGJfCJcOJd0JGJblr0Js4J
  bCJfSJWJcOJlKJws4JbnKJciWJGJwEJdUJbYJeAJh0JjSJdKJkOJc4JGTcEJl0Jc4JsOJcOJg4Jb8Jl0JsaGJcnCJcOJd0Jo4J
  bac4JczAbNcn2Jl0Jn8Jg5JxZJfcGJ;
  nl letternumber = ghCCcwH8CDdzCAZIOCbgl5JysIbQm2AIAd0Eiu0dC;
  no othernumber = e8BFACCcnRFkQFdMCdZGgBGRImBJbd7TbfXJnMAbu3ADFGJfSPbFAuGbXcGVrS3bmRAbgUDd4J4HBO6Jb
  DObgdEFyhVbIb3DRBjR0bADblAHZGbDIcDEWFeQBCPCbJb2IbQB4CcDEc6HYHbFGjGFj24eOJbGDdEGd0TkTTblRBl8IyHSxXU
  urCGwGWbbkJTMTdAYfvSIz3bWBCBDcEbIBOba0M;
  pc connectorpunctuation = cXAisXBTAcir0BYCgXA;
  pd dashpunctuation = bJAbmEAbPAdxNAbcVAcfFFdvVACA5BEA2AmOATAdDAcef2BbBAKAeZAdyIAi4A;
  pe closepunctuation = bFAbPA5Aea3ABAcaOAcqZAbTAPArWABA4AbeGABAAEcIA6ABAAClIABAAIb2ABA7AbdRABAABbIA
  BAABl6ABAACDABAABCBcecWAgBA3ABAAFDARABABAe0AbPA5ACACA;
  pf finalpunctuation = fHAipBADA2AduAABAEACAPADA;
  pi initialpunctuation = e1AipQACBCAZAduAABAEACAPADA;
  po otherpunctuation = 7CBCCABABBKBDB1Ab6AFAOBHAtSAIAm8FbFAbSACACAbIBUBBBNABCcCDc4AbHNgRCbSO5AhJBKA
  d6AdMAdNAk4AMAkHAcSAKBeYOBAdEAcCEEBdDFe1ArAIvRAdQCb9BeNCBCbBFBDiZBgABdUGBFeQBKG2CdQDbXEb0Bb2HLAxGB
  IHIICDCCDKBABJdlWDBBdEAd9BECCACIBBBACBKEBJCDBABMCCl6CbVAfJAbfs8BhRCc1AKAdHFkUDcOBbECBAbNBbLAcZMQBd
  QDdSBQBg7AwmEGCAWAUBCDDCBDHCGABBeFCBCCABABBKBDB1AbAACBlOCsUAbMAlSAuXAfTA5AhUIbCAdEGb4GcRDbaQEbIDfJ
  GdBBBDdSDbMBcHDEANABCcQFc9AiKBBBdGEKBBAc6Ag8Wc7C2McEAdWChAAhMCeLAcUHcLCBEcVJf9AcXEbGBr7BcCMe5AbfUE
  ddYBpz5BdZAb3EIApMCiHDjDAuzYAieXEddPAx8B;
  ps openpunctuation = bEAbOA5Aea4ABAcaOAcpSADAbCAbTAPArWABA4AbeGABAAEcIA6ABAAClIABAAIb2ABA7AbdRABAA
  BZASABAABl6ABAACDABAABCAcecZAf9A3ABAAFDARABABAe0AbOA5ADACA;
  sc currencysymbol = bAAdRDbi7AdPAn4BAAHAg3AhLAqFAcqLAckM6blbLAxl5AdAAeKAgDBDBitKDcbjSAcq6A;
  sk modifiersymbol = cWABAb9AGAEADAoRDMNFGBABQdJAOBbjWAgjAABCLCNCNCNBeoEBbgj5WJBc5BbbEAOBvy4Qy1ABAe
  SAcot1E;
  sm mathsymbol = bHAQCbZABAbJAEAbBA5AvKAoXCheTANAbDCNCd5AbDEGAb6EFBEACACAHA5BCABA5hP6BcSA4YbEFnBAJA
  bSHdDAjMEC4KPhEdWWb0E5ChFbMUCFcewEAw6ABCeUAQCbZABAdXAGDds7BcdaZAZA5AZA5AZA5AZA5AZAgi2B;
  so othersymbol = eWACAEABAbbFAhOBdTBf0AKATBg5AoLAkNAdWFBAdYAf1AbFAk5CPABCCFUABABAdZHBFBBFDfRBu6JuD
  AuCAeN7j3JJIbnHBBDBBKABBGFBAABEALBOABBBAbWBJECDBBBBBGB4CBBAB4hQHETCGCcIB3ZbDGb9WKcJcFWfCBIBbRIdCBg
  5bIbHb2hDoIbLVBGbCC5Bc6gNFj7BbKZBcQMf70PEANBMAVBGBjMBEJ6bBJAQ4L3IAP5KbCPi5hbEb1xrUbSyBDKBBAp7CwqWP
  dTAbJCnQADAEBNBiZIbVQCCBMDAbLbIbuCBqPAdkWAcjBHEQupODFAwgOAefPgXQmDeMdHbYg3KbCCbXFCWBH3EbYVb3DAfGcO
  bhFoHbTDbOHBNBBbwIAdc2AdVAuBbHEc1MOCOBOBbAXeQbU2NbHEIHBOFeKg8FuHEQDMDdKEcWGLEAPLEbTIJGbDI3CLEBb0jP
  MNCMDJFbTHOCKGIHeCBcT;
  zl lineseparator = iuYA;
  zp paragraphseparator = iuZA;
  zs spaceseparator = 6AdTAfzTAcpTKbAAbLAehEA"

def oneCategory? : String → Option CharSet := Named.find? (fun _ => none) categories

def categoriesOf (names : List String) : CharSet := .unions (names.filterMap oneCategory?)

def categoryGroups : List (List String × List String) := [
  (["lc", "casedletter"], ["ll", "lt", "lu"]),
  (["l", "letter"], ["ll", "lm", "lo", "lt", "lu"]),
  (["m", "mark", "combiningmark"], ["mc", "me", "mn"]),
  (["n", "number"], ["nd", "nl", "no"]),
  (["p", "punctuation", "punct"], ["pc", "pd", "pe", "pf", "pi", "po", "ps"]),
  (["s", "symbol"], ["sc", "sk", "sm", "so"]),
  (["z", "separator"], ["zl", "zp", "zs"])]

def assigned : CharSet := .unions (categories.map (Named.set fun _ => none))

def category? (name : String) : Option CharSet :=
  match name with
  | "any" => some CharSet.empty.complement
  | "ascii" => some (.range 0 127)
  | "assigned" => some assigned
  | "cn" | "unassigned" => some assigned.complement
  | "c" | "other" => some ((categoriesOf ["cc", "cf", "co"]).union assigned.complement)
  | _ =>
    match categoryGroups.find? fun g => g.1.contains name with
    | some g => some (categoriesOf g.2)
    | none => oneCategory? name

end Motif.Text.Property
