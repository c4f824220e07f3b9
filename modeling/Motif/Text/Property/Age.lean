import Motif.Text.Property.Named

/-!
# Ages

The version of the standard that first assigned each character.
-/

namespace Motif.Text.Property

/-- What each version assigned, from the first version to the last. -/
def ages : List Named := Named.table
  "1.1 v11 = An7E3bUcQHbKBJWb70BSBEADAFGBABTBbHBGDABAABBRNLBb3BLBbEJbQCBCBD1CHCBbTbBCGBbCBAbCJBIM0FE
  XAOADABZFSNNCb9CEBOB3CJoPCBbQCRCEDYQCBHCBCVBGBADDCABGCBCCJAEBBECUHACFEBCVBGBBABCABEEBCCLDBAHOMCBGB
  ABCBVBGBBBECJBCBCCAPAFJRCBHCBCVBGBBCDCHDBCCIBEBBCEKRBBFDCBDDBBABBDBDCDHBCEEDCBDJAPLOCBHBCBWBJBEEGB
  CBDHBJBEJSBBHBCBWBJBEEGBCBDHBHABBEJSBBHBCBWBPEFCCBDJAIBEJeBbVE2bBBBACBBACAGDBGBCBABACBBMBCCEBABFCJ
  CBmSbBKbCEAEcRFb5FcJdhSeKFcRGVCFCbBCFCHBAABB4CbQBOBNCFBSCCBIBbKBW9GD0RKbBR4bU0bLNcSVgZOABdMdZbA1KV
  d4VeFKcHQTGcNeBDBDC1B8BABDDABGCGO4DXBNcgZbTHABcLEFCcVGbDEcVBPcY2D921DbNPLEbKBdKEc0C4hc7wiVrpWheFf4
  GMEGYBEBABBBBBc97kEQb1CbRbELbADMUEJBSBDECBABd0CABcVCcVDFCFCFCCDGBGOC;
  2.0 v20 = bnVQBMUAcnXb9B6H0EFBABUDGBAeb3AoXAbmc2lyLddbOBcsaOBAKcsaOfka7;
  2.1 v21 = iyMAcjb9A;
  3.0 v30 = n8D4HCRdJEbNAKEcPITAdIADABAAB4AMAb4AMAbGBCDcUBeMAfUCc0BFAPAbGEBNB3D0bRbMbpNBBRDXBIBACGDA
  EFBABHSCkNAbHAXCHABCBOCAbM7BEBBBGDDGZl0GBb0BABDCGBABDCbCBABDC4BABDCGBABDCGBGBWB4BABDCGBbCBSG19cMMr
  RJ2DcId9cUDJWOBJGcPIbFcbRAYFcXCbOBcNBcAAc5IhRAdNAB3d4BmZH7AcOBlChDbnEZBcQMf70LbYCDAj3XqIha3wnGbgMD
  RCPBLBCBAxp8AbiTC;
  3.1 v31 = bcEBcqi05bkA4BDM0fBbBCbBcdsSg3KbCDe9pGcMBb8BBCACBCDBLBABDBBBb2BDCHBGB1BDBEBADGBjNEiBEbNk
  yQbtqOwfFpBbdru1A4cX;
  3.2 v32 = pEAiOATMc6B2AeDBbVBCBCBbNPj0Bi7Acn7Bbq5MBGLWJTMMBCBBck1AGEEAHENAb0BbOGcKOeYLg0NdQA4bPh6T
  eHJcQHWBcSLCJgGNcS1EPhEoHblHCcPBIBcWAgYPcJOAAbfd4BQAMADAxjObWzNADPbRBbIAgTB;
  4.0 v40 = pFASCdLBb1QcIHFCeHEoMDJIb2CeFBPAbJC3CmEAfEAb5ABAd2AcMCNAb5AbXAdVHfNBdbDASJhK2DLELEADbFCE
  c95vMc9uXBgOAsLBiOAhYBdIHOBbfCNbyHBbNAbHBcGDeXDc1B5AhbEb1bwdRAcBBmHLBZBSBBBOCN8dOFCEbIDIqA3BAd0BbC
  cHCJx0FCABbHBBDACAcdl2cOkCAbguh8gX;
  4.1 v41 = p1Kh0EePDg4Be0A8Cb5ASAbWFgZ3oXAcIAnTAbLAbb3BiHBBAhOAb1AAAbDA5AABPAbDAXB5Zbp8bFGZGJEB61CB
  xQcPsJBBGbNE3DbRAcIAPAr6Kp6Ac3BSKFPhSGxLFgUbKBbK7c8ObIKbRJAQWJGBGAF7XEBz4Pe4AbdwHVbzYWgRbHwnAc7w4J
  wOcCo39ENbr4DBBFHBCB0ECEIIIccp1b7bfCB;
  5.0 v50 = qCNiLCjNAbGFQDeWAoNbWkYBBByCBNBdv7cDEbIqHGbPBu2DcVBbRAqXLt4AhYDxNGFDi2MHDbhn9DFBh8bTbakQ
  ZFAggYyOeBc0NDbvv6Rbe6B;
  5.1 v51 = yQDCBcPAfDAd6PgKELE6EiORn3BgGA9Af0A3BdAAAA0BIBUHfJAGA3BMFDGnXBcZADCcFAFACAHCEF0b1EBcfGAu
  FbGDLb8bTDODbOjH1fBDcSFj6Ad5AcWAbRDbkEAVJDDhMA5DwTEEbEDEh2CBCEFj45YDCSvIAeSTbebEHblIiLU5CRI1dXECc8
  dCEdUb6JLbCcLLAeQbSJNCJCDwxYCyJLbQbJdW2DbMbs5ZFAccrVAilKbHEc1;
  5.2 v52 = bkUBuKbJCOfNAcFAGA9BdUAbpVDfNDfIEb6EcKFoIArSIpUb7fABbKAb7b0B2CKGJGNpG8hOAtMCeHCbSAq4AtJB
  3CEJBSBAEXcPAbcNEh0ANBc9Gi5Abc8LbdyMHbjYbLlUcPiYJeW1c22DcFBKEBdU1Eb4YEgIbJCJly4WEbMjk5CduKVBIfGBjA
  5dUbRD2C0FHdUcAo54oJb3ioGbd0bzqZKF4CALABACADADEIAHAZABBCAKDCAdDAP7OIbxlDelI;
  6.0 v60 = bkWBg6Ab0AnM1CAgDBTAGB1EoCFmBAQATAp7DcBBy8BchVbPIDoEAsQH2AwXKuKATABD3AEB2A9ABAECJBbQCYAO
  AOBboAAOAbeACbfxRBiLBBBOJcIAvSFCFCFJGBGwaTPfn8cFE3xyYp2tcHBrrSOCNCOBOcIABKBABBBCBCFHBGBJGIBACBBJEB
  BJcDZBBbLIVBe46PFBb7DTMbABEVQPb0BABfBBDDbZSXeDEBPBCBAABBCBFCDBACDBLEKbMb7bWdHcal6gF;
  6.1 v61 = bnTAdIAsTABKbT0n3Abb7BnTAFAbLCcx5CMFhEHbHDczAABAbkUBbPAFAbUBfWJbfbUAbvLH9Ag0BWAcFBuWWvrL
  Bee6bTGBbyIYHJGbQBNbYcAHJbhCbTIJydKb6LbKQQbioYDB0BBBACABJBDBABAGAEABABABCBBBACABAACBBBACDBGBDBDBAB
  JBQFCBEBQbQBrUBbbIDfIAQADABAABDAGBEABBEA;
  6.2 v62 = iy0A;
  6.3 v63 = brQAhe7D;
  7.0 v70 = y5Al2HcVBdKAsTALFcEAdMAHAr1AbPAcEAdTAgMJcmBHpIBlFOp3BgVOtZCw4GvRAbeUCKZC5C7DLBHrGGbgxZFg
  4LLCCBb7AnU4dRDe6bLEBwqRGx7BTAi519AbMbGk3bDIbPLAeAiWJVKHg6b0IIm656bCELd3RHDMGbiHAf2bCcOAMAGTLRBbGd
  GbWFJHCBHCBCVBGBBBECICBCCJAFGCGDEhPb9IJeWbRCRbSb6LJqGcKMAmQbUciGbFfWLFAtcL4BJEBcY3CFKb7KJBGBUFSwaA
  c8FMDIHJCHlwMfQCPceIA6VVBo2LJAb8AWLbBAFDFLRGb9ABAfCAEBb1BEG3RBbEBcNb8BNbLb8JQMDDd6cMbHLEbTIJGbDI3;
  8.0 v80 = cj5BbKAo3Aj2AhIAbu3ACFdmYAfXBcv2Dbfr7IbwIAgYA8FjABq8DMcHwoGBcyASBBFEfIBCPCbJr2bONbOHFbiB
  DOEeQGBABDBOBKcOAcHArVTiCZDOEPdj3AgOfPikUqGbmeXKbrLsDPEBOgsFCcGBcHEbAHhDAcDEg1Bd5Ap9Ic5EbXAcab1ge
  B;
  9.0 v90 = cj8HWOzZAf0AECBGXCec5IkKAbqXDcvABbhfNAh0AyhLBwJ9E9dqKAmRcRBABAoKMbnXIBbIBNK2D5CVBNwtNA5g
  oETu8xg3GBQCGBBBEck3cCFJEBcgTRd8AxCAbFAiMB7CpGFBHIACLBLEObCM;
  10.0 v100 = chUKlFBhAFoIAbWBeh4AhCDtZAxDAcdWArOEuUAbeg5Ubbd4CggIb9IbPCWBEq3GBBBbHDABBBIIJwo5AroAh6
  cJk9ri2FbfRB8BoPLTAIHBBZASMbCFbUWcgfFhzU;
  11.0 v110 = bmIAbDAc4AoVCf5AiKAdLAlBAdTAdg9AbdDbGCCecSCWYEOqLEuQAbehPEcdDAIBjABbapIBSAtLbDIJmWbDIb
  FkLAdKCn6AiCAtPAgNbXq7AtWFBBBbABBBFHJiWYvr1cSgyCEum4TdSGgvUb5bf4AbpFAgDDkMC2ECDDABDYKNJHBbAYcYN;
  12.0 v120 = dkXAoWACACABFEAHAHBCANAdxLAebKAbRAqPAbhfOFCEz1BbbmQWbfMAqYAuXHCbJCKePBblGbNNAfnUIqd6FE
  AbLIcSBgpCFliACRDnaQbIDNCJEBkIbVFAbs1AbaNbYbd0AbmQAbAAgNLiBCbLAbNAJAbFFDBKFDHCCbMcL2DECFCNF;
  12.1 v121 = nyXA;
  13.0 v130 = ckGJsFAl8AdQAdqFBep0AtMCyIEhq4JwmQMcdODbGBbRAw9Dxo6AdnXbFBCCBhC1kTAd0BsCAFBbg4GCACHBBB
  3BBCLJJbtCAvyLALBhkBnObGIbbjICcVCbZAbkYB9BmDBcSAc3AEBbGBGC3AeYAODPSHGJCNGbFeCBbSbBJbutBGyj4fhG;
  14.0 v140 = brRAqS4BBGHVASKyJA6AdTAcuPAHAJAgXAtFNdRAbMBrXAtZAddKAbLAn5Kbfb9CcdEBOBBABEYCwx7AkVPdTA
  bKBca6KBOBGBBBKBOBGBBmTFBbFBIcc3ZgOFcEAbqOAd0GyJPfsAc0pz7cGBJsx0DBGBBiADieNbJCWJdHpJBdpB4yR4bk7GBD
  BBBOeb0ChUAk6AcKAe4BbIDKDICRCGHIGbvaPBemFD;
  15.0 v150 = doDAnGAcsb0CxDCckGJbcGQBbED1fsFAJ2bid6A8AjdWTdjVFhJbZ7AbeIbFexGAeHCEEcRAsTCPBbACLCBAOB
  KBMAOBbzmYAze4emP;
  15.1 v151 = ndIDn1AhixUrJ;
  16.0 v160 = cjDAfdCBbLAhNBccECdtWBbggNCMCzrXbPbz6bBD2IBiSCbTAbgDJBACABbBBJBACABDBJBBIBu3TbiU7OJyAA
  ftReg8hyNbVdhSbViqFArgAg7GmDgiMbGEAfc8JEBmXAFAbKAHAVACAJAgJbA"

end Motif.Text.Property
