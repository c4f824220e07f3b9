import Motif.Text.Property.Category

/-!
# Binary properties

Properties that a character has or has not.
-/

namespace Motif.Text.Property

/-- The characters that have each property. A property is close to categories and to properties that
come after it. -/
def binaries : List Named := Named.table
  "grbase graphemebase = c grext any = it6A1BbljmOcX;
  xidc xidcontinue = idc = y0Ami6Bcds7FlKBdIABAAF;
  idc idcontinue = ids mn mc nd pc oidc = gsNB;
  alpha alphabetic = ids oalpha oids = mqPA;
  xids xidstart = ids = y0AcyIAdTAjhDBcds7FlKBdIABAAFh9B;
  ids idstart = l nl oids = mqPA;
  ci caseignorable = mn lm sk cf me = bDAGALAdQAt9AnDAeEAhd5BKACAcisDAb0ACAe7AGALA;
  grext graphemeextend = mn ogrext me = ;
  oalpha otheralphabetic = m dia sk vs = fDAoARELOEHABAcOAJAIEXAFAhRBf1AcONBABBBBBAdXHEAd7BcBPc4Kb5B
  HAbLAbHCbIAb2AJAMBBGGOdGAd6AbeDAeDAe9BgHBEEZGBAKBbyQBbgAAb3FcNAcQb0bM9BDMCvJ6ba3bPcjBAe5At6AbgdHCM
  A2BdNIc6AdDBiUAfCAeFCb4ABAeJDJAvu2AeDQbaFAbJBq3AbnGFBbFBIbmPFbCA0Av7AjFAoRAd4AbpQAc2AhaPApqSBpGQb6
  ALBrnCDBGBBdl0Afr1BgDCcc9bSEbNIAOAWEBObnEbZbf8DdjEZGZGZrNE;
  dia diacritic = grlink sk = fDAoARELOEHABARcGBHFFRAFAhMEf3AbTbIBABBBBBAdXHEBd0BEBDCb50cTKbWK8BdCAP
  HbFJQ1bZAUD2AcCAdTAAAb2CbYAYAgOAdTAk8FBAdNEcDB1ABABAEBb4BCBb0AdEAbHBEEZGBAKBtVCbfNIBAJAjXCiZHCAbMO
  CKc6AbSIdGAcHBb2FcKYEAGACCbOb0bM9FLbBKecHCd7Ae5AoCFc7BcZAbgdGAMBBA2BcKBbBIc6AdDBgORbVDdYAbNAeFCb3D
  eJDJAdWAvrFAeDQq3Pi6AbJBxEAbg5FBbFBIrZCe0Bp5FbCA0ElDCb8KbNDg7AbWAfEAcOCc7Ae8AcJBbFGDEcVBNBc1AdQAhA
  Ag4Ak0AhMAbcOAo5Afs2OoyKEbXGpYBpGQcIBrnCDBGBBimRbJCWpECDFIHCG4DdzGbZfOGkPAbZDvKBuQGdBCBCcyAE;
  lower lowercase = ll olower = ;
  upper uppercase = lu oupper = ;
  cwcm changeswhencasemapped = cwl cwu lt = ;
  cwu changeswhenuppercased = cwt lt = mUACACAbCAeb0bGCC;
  cwt changeswhentitlecased = ll = iYAcMA2BOADAFACACAbCAbLASF1ACABACCCAEAFBBACBBGBBBACCGEBABHCQeFAfC
  Aj5AbDAdcHbGCCdhMbHb1MCCBPBLhFBBArGADBDA1AEAEACBIDbCPxUZcbTACACEc6AbhlXBb1HVAGAZA9ABAbAAw38BGFIddd
  3Z0GBR0Z0DBABGBK0ZAG012YBF0YBF0YBF0YBF0YBFBAbzIJBTGF;
  cwcf changeswhencasefolded = cwl = fBAbFAc7AbRAmVAdQANBDBZBDAlFAdwIcNCFciSIoZBgMHIHIHKCCAKCCAbGCCA
  bmd2cHvrUGME;
  cwl changeswhenlowercased = lu lt = bbGChzRAEADCCCCADEGADADBCBBAKBFA0PxKZenyIZ0Z0Z0ABBCACBCDBH0Z0B
  BDCHBG1BBDBEBADG1Z0ZAD4Y7YAC7A;
  cased = lc olower oupper = ;
  emoji = extpict = 9AGAFJjrCArYABGBBBADBBDBBBACBBCBCCHDEBABEMKCBBACABRBBCFKBGABACCCEBBCDCKCECBBECAB
  ACTCEGAEBBDBBJABBcLCeuw6DBfVBbLNC5AbYDbZcKDMbIDJGCe38BdEBCADBcLBDAEEhCAb9CGAYGCBILBBEBBDCMCBBHCIBE
  DLDHDBBABDBFBCBFfYEIBDDKCBACCBBKCdILcNKMDBOMDbUHKFbEH4cJhEdDNCKEbUGPBLFJGhEbcN;
  math = omath sm = ;
  omath othermath = cWAyRCCA0BCBhsAA1CLA6DYBOBb3MEADBEESAEACJBADEGADBCBBCBFDDFEcDECDBBBBBABECBEBERCB
  BABGBAGBiCDeYBBAYARAmNBMIFEFBCBDEOABACFYBbVABA3DJBjSB5JlHVb1D6BcgcLABAEAf5ABAcge7cMBb8BBCACBCDBLBA
  BGBb2BDCHBGB1BDBEBADGBjPCYBYB4BYB4BYB4BYB4BYBHCbNgaQDB0BBBACABJBDBABAGAEABABABCBBBACABAACBBBACDBGB
  DBDBABJBQFCBEBQ;
  term terminalpunctuation = sterm = bIANBxGAIAp5AcAAOAgPHBAgTAbTFCABC7AbqTBe2AEFbeWABDzACgQADAbDABB
  CAxYAgHCeyBAKABBmBAbfz6AhSAgOCuAAh1AwvMBCBfCANBcAAbeCAbMAbgGAfTAm6Fb6FcRDbhIEnYAo0AMBkABbiTBlUAbJA
  ce4EtjIAx7AbdnTABB;
  sterm sentenceterminal = 7AMAQAblVAeDCfAAbHCg4AbZABADBiFBbxABv8AEBvRAfSBeNBbJAFAi0Bj4DeSBKBCB3CfHB
  b3Bz6AXBJCdmHCiSANAWBl7Abfz6AhSBgLADAkWBcOBcXAeIBeDCeABg7AwmGACBbXADBeZAMAQAb3Acz6BbjREbIDfJBdJDdT
  CdVBGAQBcQBBBdAAiKBdJBkNBFOc7Bg7CoNABAg9BcPBlYBtIBcCBuoRBdZAb3BLApNBiIAvi4AieYA;
  extpict extendedpictographic = eZAEAiqNAMAgAAWAcSFPBkHBMAcXAb8AZKECfTAgPBKAJAbWDBFBLBdFKdJCKBABAGA
  DAGAKBPACAEABAECBALEbJCJAOAOAkMBm5CTBbPAEAbiSAMAqZABAervKhDNC5AbYFMBOACJSbU1OKAUACIBDJmBFi3IhNbMdT
  dILcNbGMDbUHKFbEH4cJMbKBJBmIhEbcN;
  epres emojipresentation = jpWBfZDDACAoRBVBbOLbHATANAIBRBFBIAFAVAHBBAEACAHAEB2A9ABAECBAbZCYAOAx5BbP
  AEAetvCAfWAfKACJcDZBAYAUACEBCVBe46MIBb7BVMbGEEMQDADb8BABfGCb0NDBXSA0BNAcOcMbMb7GADCCCEDLBHIgLLEAh5
  bKBJBfEdEMDJFbTHOCKGI;
  grlink graphemelink = coFAdTAAFdBBQAdQAdDAdTAfVAfABbwZB4AeNAsFAgLAc3Bb8Beu1AbhnKAbBAeHAd8AdAAiVAg4
  AzuZAbq4AbFAOAbVAdNBd5AdIAfAAc0AdUCdFAdTAhAAdTAdKAdIAhRAhHBeRAcLASAcJAlZAhIBcJAl3Bsa2A;
  ogrext othergraphemeextend = crKAYAj8AYAc4AYAgQABAEBBBJBc5AYAdLAPAcnRA4AbcQAFABAFBc3Ab9BbdEAekZBbh
  dPAdAAxmVBey6AdIAhMAOAJAcYAJACABCFAgIAMAgZAhKArVAMAbq1Awb0Bbaq9BGFbguzJcX;
  ext extender = fDAo6ByOAmJArSAd3AcRAu6AdTAcn5AbUAq9AlCAb6Afi7AbHEc5BcVCbej8AbqOAba0AWAd3AdAAVBxc1A
  cfMBbpHA1AEAbh9AiFAdIBn4CbiHAwbVBbg2BBAbfaABbhNAxYC;
  ebase emojimodifierbase = klBAgDAQDevyPAbYCCACCdJBCKVSDAECBCHABAYAfVBEAVAEBe4CDEcLAQCJALAp9ACAIHGA
  JJCCbUAbZBBBBARCBMgNCbGI;
  ideo ideographic = uideo = ndSBZIOCccxZhRCABACJBABACBDb5Cc7bgaKA1goPIbiNbFJjy5k9dkxIpB;
  olower otherlowercase = e0APAn7IHB4EcYAbQAdsBAdiXb0NA8bAtFANAQMf5PxUZcb4BbhkOBf4AdVCDByCDJAze4ACCB
  bFBIchfJbZ;
  dash = pd = iv5AbDAPAk4A;
  patsyn patternsyntax = 7OKG0DBA0D8GBABBBABBEAEADAXA5AinEXIOCSBJiRt9eQrR4bfPoIdTkZCEYPAcecFBhJB;
  sd softdotted = c7BfQAh3A4AbQAUAi6Ac0ABAgwBAbPANADAdYAeNAlZAf8BdbWAelwVBbOBAKciWAiRB0A;
  di defaultignorablecodepoint = odi vs cf pcm = csaJCohIP;
  uideo unifiedideograph = of2hbDb2wlDyqOBBABBKABABBCCctp8btqX6elNGgFCgeBOhzUPrJevOfhGFemP;
  odi otherdefaultignorablecodepoint = xTAdv9Bbs9Bcj1Aeq4AcekTAcHIbjaf9AB3cYdTgYdv9;
  idcompatmathcontinue = idcompatmathstart = e8BFAirSADKBO;
  qmark quotationmark = 8AEAdXAPAipAHZBdv1AmZDNCcej3DfJAEAcSB;
  ecomp emojicomponent = 9AGAFJisLAf7Acim1Acor8ZoDEboQDbgjzAcX;
  hyphen = bJAdTAbiUAfbPAcfFBdvZAuTAceeXAeZAcPA;
  idcompatmathstart = jh4AEAWAepk8AZA5AZA5AZA5AZA5AZA;
  dep deprecated = jFAbkZAcmDABAcgBBckNFtNBbliqGA;
  wspace whitespace space = z = JEdLA;
  oidc otheridcontinue = fDAt9Aei7IbtUAbsBBeqNAcel3A;
  pcm prependedconcatenationmark = bqYFf9AbNAkYBcIAcueKAPA;
  mcm modifiercombiningmark = btABCAdXAGADBnNBBCDA5A;
  loe logicalorderexception = dxMEdPEcz2CCAbnq8BCABB;
  vs variationselector = go9CBAckxEPbjbaYgX;
  oupper otheruppercase = jdMPxKZevx2ZGZGZ;
  hex hexdigit = bMJHF0Fcrq7JHF0F;
  nchar noncharactercodepoint = crk65oWBcsaOBAO;
  oids otheridstart = gsNBci7AVAefYB;
  patws patternwhitespace = JESAc2AiqIBYB;
  bidic bidicontrol = brQAhcRB0EbTD;
  radical = msYZBcQMf7;
  idsb idsbinaryoperator = nc6BCJn3A;
  ahex asciihexdigit = bMJHF0F;
  ri regionalindicator = fgeWZ;
  emod emojimodifier = fgtPE;
  joinc joincontrol = it6B;
  idsu idsunaryoperator = ndKB;
  idst idstrinaryoperator = nc8B"

def binary? : List Named → String → Option CharSet
  | [], name => category? name
  | n :: rest, name => if n.names.contains name then some (n.set (binary? rest)) else binary? rest name

end Motif.Text.Property
